import BATorrent.Lib.Run
import BATorrent.Lib.Rows

namespace BATorrent.SubtitleSearch

open Lib

abbrev Text := List Char

structure SubtitleResult where
  provider : Text
  name : Text
  language : Text
  downloadRef : Text
deriving DecidableEq

-- What the handlers read of a reply's JSON. What is not there reads as empty, hi as false and completed as true.
section Documents

structure SubdlFile where
  format : Text
  url : Text
  language : Text
  releaseName : Text
  name : Text
  hi : Bool

structure SubdlSub where
  unpackFiles : List SubdlFile
  url : Text
  language : Text
  releaseName : Text
  name : Text
  hi : Bool

structure OsFile where
  fileName : Text
  fileId : Text

structure OsAttributes where
  files : List OsFile
  language : Text
  release : Text

structure GestdownSub where
  completed : Bool
  version : Text
  hearingImpaired : Bool
  downloadUri : Text

structure Document where
  subtitles : List SubdlSub
  data : List OsAttributes
  shows : List Text
  matchingSubtitles : List GestdownSub

def Document.empty : Document := ⟨[], [], [], []⟩

end Documents

section Results

def withHi (name : Text) (hi : Bool) : Text := if hi then name ++ " [HI]".toList else name

-- Letters are lowered by Qt.
variable (toLower : Text → Text)

def subdlResult (language releaseName name : Text) (hi : Bool) (ref : Text) : SubtitleResult :=
  ⟨"SubDL".toList, withHi (if releaseName = [] then name else releaseName) hi, toLower language, ref⟩

def SubdlFile.result (f : SubdlFile) : Option SubtitleResult :=
  if toLower f.format ≠ "srt".toList ∨ f.url = [] then none
  else some (subdlResult toLower f.language f.releaseName f.name f.hi f.url)

-- The files of a pack, or the pack where none of them can be had.
def SubdlSub.results (so : SubdlSub) : List SubtitleResult :=
  let added := so.unpackFiles.filterMap (SubdlFile.result toLower)
  if added ≠ [] then added
  else if so.url = [] then []
  else [subdlResult toLower so.language so.releaseName so.name so.hi so.url]

def OsAttributes.result (attrs : OsAttributes) : Option SubtitleResult :=
  match attrs.files with
  | [] => none
  | first :: _ => some ⟨"OpenSubtitles".toList, if attrs.release = [] then first.fileName else attrs.release,
      attrs.language, first.fileId⟩

def GestdownSub.result (l : Text) (o : GestdownSub) : Option SubtitleResult :=
  if o.completed = false ∨ o.downloadUri = [] then none
  else some ⟨"Gestdown".toList, withHi o.version o.hearingImpaired, l, o.downloadUri⟩

end Results

-- A provider that a search asked, by what it waits for: one reply, or one for each language, which share a count.
inductive Asked where
  | subdl
  | openSubtitles
  | gestdownShow (season episode : Int) (langs : List Text)
  | gestdownLangs (remaining : Int) (waiting : List Text)
deriving DecidableEq

structure ParsedName where
  season : Int
  episode : Int

structure Provider where
  -- The search that asked it.
  search : Nat
  asked : Asked
deriving DecidableEq

-- Each result with the search whose reply it came in, and how often the last search was reported as finished.
structure State where
  results : List (Nat × SubtitleResult)
  pending : Int
  providers : List Provider
  searches : Nat
  finished : Nat

inductive Out where
  | resultsChanged
  | errorOccurred (message : Text)
  | searchFinished
deriving DecidableEq

-- No document where the request failed.
inductive Event where
  | search (pn : ParsedName) (subdlKey openSubtitlesKey : Text) (languages : List Text)
  | replied (provider language : Nat) (reply : Option Document)

-- What a reply does: the results in it, whether they are reported, what is still waited for and whether that was all.
structure Handled where
  found : List SubtitleResult
  changed : Bool
  rest : Option Asked
  done : Bool

section Steps

variable (toLower : Text → Text)

def Asked.handle (a : Asked) (language : Nat) (reply : Option Document) : Option Handled :=
  match a with
  | .subdl =>
      match reply with
      | some doc => some ⟨doc.subtitles.flatMap (SubdlSub.results toLower), true, none, true⟩
      | none => some ⟨[], false, none, true⟩
  | .openSubtitles =>
      match reply with
      | some doc => some ⟨doc.data.filterMap OsAttributes.result, true, none, true⟩
      | none => some ⟨[], false, none, true⟩
  | .gestdownShow _ _ langs =>
      let showId :=
        match reply with
        | some doc => doc.shows.headD []
        | none => []
      if showId = [] ∨ langs = [] then some ⟨[], false, none, true⟩
      else some ⟨[], false, some (.gestdownLangs langs.length langs), false⟩
  | .gestdownLangs remaining waiting =>
      (waiting[language]?).map fun l =>
        let remaining := remaining - 1
        let waiting := waiting.eraseIdx language
        let rest := if waiting = [] then none else some (.gestdownLangs remaining waiting)
        match reply with
        | some doc => ⟨doc.matchingSubtitles.filterMap (GestdownSub.result l), true, rest, remaining ≤ 0⟩
        | none => ⟨[], false, rest, remaining ≤ 0⟩

namespace State

def searchFinished (s : State) : State := { s with finished := s.finished + 1 }

def providerDone (s : State) : State × List Out :=
  if s.pending - 1 ≤ 0 then ({ s with pending := 0 }.searchFinished, [.searchFinished])
  else ({ s with pending := s.pending - 1 }, [])

def ask (s : State) (asked : Asked) : State :=
  { s with pending := s.pending + 1, providers := s.providers ++ [⟨s.searches, asked⟩] }

def search (s : State) (pn : ParsedName) (subdlKey openSubtitlesKey : Text) (languages : List Text) :
    State × List Out :=
  let s := { s with results := [], pending := 0, searches := s.searches + 1, finished := 0 }
  let s := if subdlKey ≠ [] then s.ask .subdl else s
  let s := if openSubtitlesKey ≠ [] then s.ask .openSubtitles else s
  let s := if 0 ≤ pn.season ∧ 0 ≤ pn.episode then s.ask (.gestdownShow pn.season pn.episode languages) else s
  if s.pending = 0 then
    (s.searchFinished, [.resultsChanged, .errorOccurred "no_sources".toList, .searchFinished])
  else (s, [.resultsChanged])

def take (s : State) (i : Nat) (p : Provider) (h : Handled) : State :=
  { s with
    results := s.results ++ h.found.map (p.search, ·)
    providers :=
      match h.rest with
      | some rest => s.providers.set i ⟨p.search, rest⟩
      | none => s.providers.eraseIdx i }

def replied (s : State) (i : Nat) (p : Provider) (h : Handled) : State × List Out :=
  let s := s.take i p h
  let changed : List Out := if h.changed then [.resultsChanged] else []
  if h.done then
    let (s, out) := s.providerDone
    (s, changed ++ out)
  else (s, changed)

end State

def init : State := ⟨[], 0, [], 0, 0⟩

def next (s : State) : Event → Option (State × List Out)
  | .search pn subdlKey openSubtitlesKey languages => some (s.search pn subdlKey openSubtitlesKey languages)
  | .replied i language reply =>
      (s.providers[i]?).bind fun p => (p.asked.handle toLower language reply).map fun h => s.replied i p h

def machine : Machine State Event Out := ⟨init, next toLower⟩

end Steps

end BATorrent.SubtitleSearch

namespace BATorrent.SubtitleSearch

open Lib Lib.Machine

-- The providers that the last search asked and that still have to answer.
def State.asked (s : State) : List Provider := s.providers.filter fun p => p.search = s.searches

-- What is shown is from the last search, and it was reported as finished once if all it asked have answered,
-- and not before.
structure State.Latest (s : State) : Prop where
  results : ∀ r ∈ s.results, r.1 = s.searches
  finished : s.finished = if s.searches = 0 ∨ s.asked ≠ [] then 0 else 1

variable (toLower : Text → Text)

-- A reply to an earlier search brings no result and is not the last of its provider.
def Heeded (s : State) : Event → Prop
  | .search .. => True
  | .replied i language reply => ∀ p, s.providers[i]? = some p → p.search = s.searches ∨
      ∀ h, p.asked.handle toLower language reply = some h → h.found = [] ∧ h.done = false

-- The count of a provider asked for several languages is that of the replies it waits for.
def Asked.Counted : Asked → Prop
  | .gestdownLangs remaining waiting => remaining = waiting.length ∧ waiting ≠ []
  | _ => True

structure State.Sound (s : State) : Prop where
  latest : s.Latest
  pending : s.pending = s.asked.length
  counted : ∀ p ∈ s.providers, p.asked.Counted
  known : ∀ p ∈ s.providers, p.search ≤ s.searches ∧ 0 < p.search

section Steps

variable {s : State} {a : Asked} {language : Nat} {reply : Option Document} {h : Handled}

-- A provider is done when it waits for nothing more.
theorem handle_counted (hcounted : a.Counted) (hhandle : a.handle toLower language reply = some h) :
    (h.done = true ↔ h.rest = none) ∧ ∀ rest ∈ h.rest, rest.Counted := by
  cases a with
  | subdl =>
      cases reply with
      | none => cases hhandle; exact ⟨iff_of_true rfl rfl, nofun⟩
      | some doc => cases hhandle; exact ⟨iff_of_true rfl rfl, nofun⟩
  | openSubtitles =>
      cases reply with
      | none => cases hhandle; exact ⟨iff_of_true rfl rfl, nofun⟩
      | some doc => cases hhandle; exact ⟨iff_of_true rfl rfl, nofun⟩
  | gestdownShow season episode langs =>
      unfold Asked.handle at hhandle
      dsimp only at hhandle
      split_ifs at hhandle with hnone
      · cases hhandle
        exact ⟨iff_of_true rfl rfl, nofun⟩
      · cases hhandle
        refine ⟨iff_of_false Bool.false_ne_true nofun, fun rest hrest => ?_⟩
        obtain rfl := Option.some_inj.mp hrest
        exact ⟨rfl, fun hempty => hnone (.inr hempty)⟩
  | gestdownLangs remaining waiting =>
      obtain ⟨hremaining, hne⟩ := hcounted
      obtain ⟨l, hl, rfl⟩ := Option.map_eq_some_iff.mp hhandle
      have hlt := (List.getElem?_eq_some_iff.mp hl).1
      have hlen := List.length_eraseIdx_of_lt hlt
      have hlast : remaining - 1 ≤ 0 ↔ waiting.eraseIdx language = [] := by
        rw [← List.length_eq_zero_iff, hlen]
        omega
      have hrest : ∀ rest ∈ (if waiting.eraseIdx language = [] then none
          else some (Asked.gestdownLangs (remaining - 1) (waiting.eraseIdx language))), rest.Counted := by
        intro rest hrest
        split_ifs at hrest with hempty
        · cases hrest
        · obtain rfl := Option.some_inj.mp hrest
          refine ⟨?_, hempty⟩
          rw [hlen]
          omega
      have hdone : decide (remaining - 1 ≤ 0) = true ↔ (if waiting.eraseIdx language = [] then none
          else some (Asked.gestdownLangs (remaining - 1) (waiting.eraseIdx language))) = none := by
        rw [decide_eq_true_iff, hlast]
        split_ifs with hempty
        · exact iff_of_true hempty rfl
        · exact iff_of_false hempty nofun
      cases reply with
      | none => exact ⟨hdone, hrest⟩
      | some doc => exact ⟨hdone, hrest⟩

end Steps

section Search

variable {s : State}

-- What holds of a search while it asks its providers.
structure Asking (s : State) : Prop where
  results : s.results = []
  finished : s.finished = 0
  searches : 0 < s.searches
  pending : s.pending = s.asked.length
  counted : ∀ p ∈ s.providers, p.asked.Counted
  known : ∀ p ∈ s.providers, p.search ≤ s.searches ∧ 0 < p.search

theorem asking_ask (h : Asking s) {asked : Asked} (hcounted : asked.Counted) : Asking (s.ask asked) where
  results := h.results
  finished := h.finished
  searches := h.searches
  pending := by
    have hasked : (s.ask asked).asked = s.asked ++ [⟨s.searches, asked⟩] := by
      refine (List.filter_append _ _).trans (congrArg (s.asked ++ ·) ?_)
      simp [State.ask]
    rw [hasked, List.length_append, List.length_singleton, State.ask, h.pending]
    rfl
  counted := by
    intro p hp
    rcases List.mem_append.mp hp with hp | hp
    · exact h.counted p hp
    · rw [List.mem_singleton.mp hp]
      exact hcounted
  known := by
    intro p hp
    rcases List.mem_append.mp hp with hp | hp
    · exact h.known p hp
    · rw [List.mem_singleton.mp hp]
      exact ⟨Nat.le_refl _, h.searches⟩

theorem asking_ask_if {c : Prop} [Decidable c] (asked : Asked) (h : Asking s) (hcounted : asked.Counted) :
    Asking (if c then s.ask asked else s) := by
  split_ifs
  · exact asking_ask h hcounted
  · exact h

theorem sound_search (hcounted : ∀ p ∈ s.providers, p.asked.Counted)
    (hknown : ∀ p ∈ s.providers, p.search ≤ s.searches ∧ 0 < p.search) (pn : ParsedName) (subdlKey openSubtitlesKey : Text)
    (languages : List Text) : (s.search pn subdlKey openSubtitlesKey languages).1.Sound := by
  have hstart : Asking { s with results := [], pending := 0, searches := s.searches + 1, finished := 0 } := by
    refine ⟨rfl, rfl, Nat.succ_pos _, ?_, hcounted, fun p hp => (hknown p hp).imp_left Nat.le_succ_of_le⟩
    have hnone : State.asked { s with results := [], pending := 0, searches := s.searches + 1, finished := 0 } = [] := by
      refine List.filter_eq_nil_iff.mpr fun p hp heq => ?_
      have hle := (hknown p hp).1
      have hsearch : p.search = s.searches + 1 := of_decide_eq_true heq
      omega
    rw [hnone]
    rfl
  have hasking := asking_ask_if (c := 0 ≤ pn.season ∧ 0 ≤ pn.episode)
    (.gestdownShow pn.season pn.episode languages)
    (asking_ask_if (c := openSubtitlesKey ≠ []) .openSubtitles
      (asking_ask_if (c := subdlKey ≠ []) .subdl hstart trivial) trivial) trivial
  unfold State.search
  dsimp only
  revert hasking
  generalize (if 0 ≤ pn.season ∧ 0 ≤ pn.episode then _ else _ : State) = t
  intro hasking
  have hpending := hasking.pending
  have hsearches := hasking.searches
  split_ifs with hzero
  · have hempty : t.asked = [] := List.length_eq_zero_iff.mp (by omega)
    refine ⟨⟨fun r hr => ?_, ?_⟩, hpending, hasking.counted, hasking.known⟩
    · rw [show t.searchFinished.results = t.results from rfl, hasking.results] at hr
      exact absurd hr List.not_mem_nil
    · have hover : ¬ (t.searches = 0 ∨ t.asked ≠ []) := not_or.mpr ⟨Nat.ne_of_gt hsearches, not_not_intro hempty⟩
      exact (congrArg (· + 1) hasking.finished).trans (if_neg hover).symm
  · refine ⟨⟨fun r hr => ?_, ?_⟩, hpending, hasking.counted, hasking.known⟩
    · rw [hasking.results] at hr
      exact absurd hr List.not_mem_nil
    · have hasked : t.asked ≠ [] := by
        intro hempty
        rw [hempty] at hpending
        exact hzero hpending
      rw [if_pos (.inr hasked), hasking.finished]

end Search

section Reply

variable {s : State} {i language : Nat} {reply : Option Document} {p : Provider} {h : Handled}

theorem length_asked (s : State) : s.asked.length = s.providers.countP fun p => p.search = s.searches :=
  List.countP_eq_length_filter.symm

theorem asked_ne_nil (hp : s.providers[i]? = some p) (hlast : p.search = s.searches) : s.asked ≠ [] :=
  List.ne_nil_of_mem (List.mem_filter.mpr ⟨List.mem_of_getElem? hp, decide_eq_true hlast⟩)

theorem mem_take {q : Provider} (hq : q ∈ (s.take i p h).providers) :
    q ∈ s.providers ∨ ∃ rest ∈ h.rest, q = ⟨p.search, rest⟩ := by
  unfold State.take at hq
  dsimp only at hq
  cases hrest : h.rest with
  | none =>
      rw [hrest] at hq
      exact .inl (List.mem_of_mem_eraseIdx hq)
  | some rest =>
      rw [hrest] at hq
      exact (List.mem_or_eq_of_mem_set hq).imp_right fun heq => ⟨rest, rfl, heq⟩

-- One provider less waits where that was all, and as many as before where it was not.
theorem length_asked_take (hp : s.providers[i]? = some p) :
    s.asked.length = (s.take i p h).asked.length + if h.rest = none ∧ p.search = s.searches then 1 else 0 := by
  obtain ⟨hlt, hget⟩ := List.getElem?_eq_some_iff.mp hp
  rw [length_asked, length_asked, State.take]
  dsimp only
  cases hrest : h.rest with
  | none =>
      rw [countP_eraseIdx _ hp]
      congr 1
      split_ifs with hlast
      · rw [decide_eq_true hlast.2]
        rfl
      · rw [decide_eq_false fun heq => hlast ⟨rfl, heq⟩]
        rfl
  | some rest =>
      rw [if_neg nofun, Nat.add_zero, List.countP_set hlt, hget]
      dsimp only
      split_ifs with hlast
      · have hpos : 0 < s.providers.countP fun p => p.search = s.searches :=
          List.countP_pos_iff.mpr ⟨p, List.mem_of_getElem? hp, hlast⟩
        omega
      · omega

theorem sound_replied (hsound : s.Sound) (hp : s.providers[i]? = some p)
    (hhandle : p.asked.handle toLower language reply = some h)
    (hheeded : p.search = s.searches ∨ h.found = [] ∧ h.done = false) : (s.replied i p h).1.Sound := by
  have hmem := List.mem_of_getElem? hp
  obtain ⟨hdone, hrestCounted⟩ := handle_counted toLower (hsound.counted p hmem) hhandle
  have hresults : ∀ r ∈ (s.take i p h).results, r.1 = s.searches := by
    intro r hr
    rcases List.mem_append.mp hr with hr | hr
    · exact hsound.latest.results r hr
    · obtain ⟨result, hresult, rfl⟩ := List.mem_map.mp hr
      refine hheeded.resolve_right fun hlate => ?_
      rw [hlate.1] at hresult
      exact List.not_mem_nil hresult
  have hcounted : ∀ q ∈ (s.take i p h).providers, q.asked.Counted := by
    intro q hq
    rcases mem_take hq with hq | ⟨rest, hrest, rfl⟩
    · exact hsound.counted q hq
    · exact hrestCounted rest hrest
  have hknown : ∀ q ∈ (s.take i p h).providers, q.search ≤ s.searches ∧ 0 < q.search := by
    intro q hq
    rcases mem_take hq with hq | ⟨rest, -, rfl⟩
    · exact hsound.known q hq
    · exact hsound.known p hmem
  have hpending := hsound.pending
  have hfinished := hsound.latest.finished
  have hlen := length_asked_take (h := h) hp
  have hnil : ∀ {t : State}, t.asked ≠ [] ↔ t.asked.length ≠ 0 := not_congr List.length_eq_zero_iff.symm
  unfold State.replied
  dsimp only
  cases hrest : h.rest with
  | none =>
      have hall := hdone.mpr hrest
      have hlast : p.search = s.searches := hheeded.resolve_right fun hlate => by
        rw [hlate.2] at hall
        contradiction
      have hsearches : s.searches ≠ 0 := hlast ▸ Nat.ne_of_gt (hsound.known p hmem).2
      rw [if_pos (.inr (asked_ne_nil hp hlast))] at hfinished
      rw [if_pos ⟨hrest, hlast⟩] at hlen
      rw [if_pos hall, State.providerDone]
      change State.Sound (if s.pending - 1 ≤ 0 then _ else _ : State × List Out).1
      split_ifs with hend
      · have hempty : (s.take i p h).asked.length = 0 := by omega
        refine ⟨⟨hresults, ?_⟩, congrArg Nat.cast hempty.symm, hcounted, hknown⟩
        refine (congrArg (· + 1) hfinished).trans (if_neg (not_or.mpr ⟨hsearches, fun hne => ?_⟩)).symm
        exact hnil.mp hne hempty
      · have hmore : (s.take i p h).asked.length ≠ 0 := by omega
        refine ⟨⟨hresults, ?_⟩, ?_, hcounted, hknown⟩
        · exact hfinished.trans (if_pos (.inr (hnil.mpr hmore))).symm
        · change s.pending - 1 = ((s.take i p h).asked.length : Int)
          omega
  | some rest =>
      have hmore : h.done = false := by
        rw [Bool.eq_false_iff, Ne, hdone, hrest]
        nofun
      rw [if_neg (c := h.rest = none ∧ p.search = s.searches) fun hand => by simp [hrest] at hand] at hlen
      rw [hmore, if_neg Bool.false_ne_true]
      refine ⟨⟨hresults, ?_⟩, hpending.trans (congrArg Nat.cast hlen), hcounted, hknown⟩
      refine hfinished.trans ?_
      have hsame : s.asked ≠ [] ↔ (s.take i p h).asked ≠ [] := by
        rw [hnil, hnil, hlen]
        rfl
      exact if_congr (or_congr_right hsame) rfl rfl

end Reply

section Run

theorem sound_init : init.Sound where
  latest := ⟨nofun, rfl⟩
  pending := rfl
  counted := nofun
  known := nofun

theorem sound_next {s s' : State} {e : Event} {out : List Out} (hsound : s.Sound) (hheeded : Heeded toLower s e)
    (hnext : next toLower s e = some (s', out)) : s'.Sound := by
  cases e with
  | search pn subdlKey openSubtitlesKey languages =>
      have heq : (s.search pn subdlKey openSubtitlesKey languages).1 = s' := congrArg Prod.fst (Option.some_inj.mp hnext)
      exact heq ▸ sound_search hsound.counted hsound.known pn subdlKey openSubtitlesKey languages
  | replied i language reply =>
      obtain ⟨p, hp, hhandle⟩ := Option.bind_eq_some_iff.mp hnext
      obtain ⟨h, hhandle, heq⟩ := Option.map_eq_some_iff.mp hhandle
      have heq : (s.replied i p h).1 = s' := congrArg Prod.fst heq
      exact heq ▸ sound_replied toLower hsound hp hhandle ((hheeded p hp).imp_right fun hlate => hlate h hhandle)

theorem sound_run {past : List (Reaction State Event Out)} {s : State}
    (hrun : (machine toLower).Run (Heeded toLower) past s) : s.Sound :=
  Run.invariant State.Sound sound_init (fun _ _ _ _ hsound hheeded hnext => sound_next toLower hsound hheeded hnext) hrun

-- While no late reply brings a result or ends its provider, what is shown is from the last search and it ends once.
theorem run_latest {past : List (Reaction State Event Out)} {s : State}
    (hrun : (machine toLower).Run (Heeded toLower) past s) : ∀ t ∈ visited past s, t.Latest := by
  intro t ht
  rcases List.mem_cons.mp ht with rfl | ht
  · exact (sound_run toLower hrun).latest
  · obtain ⟨r, hr, rfl⟩ := List.mem_map.mp ht
    obtain ⟨earlier, s', hearlier, -⟩ := hrun.before hr
    exact (sound_run toLower hearlier).latest

section Overlap

def film : ParsedName := ⟨-1, -1⟩

def oneSubtitle : Document :=
  { Document.empty with subtitles := [⟨[], "/sub.zip".toList, "EN".toList, "Film".toList, [], false⟩] }

def askSubdl : Event := .search film "key".toList [] ["en".toList]

theorem heeded_searched {p : Provider} {reply : Option Document} {s : State} (hp : s.providers = [p])
    (hlast : p.search = s.searches) : Heeded toLower s (.replied 0 0 reply) := by
  intro q hq
  rw [hp] at hq
  obtain rfl := Option.some_inj.mp hq
  exact .inl hlast

theorem run_latest_film : ∃ past s, (machine id).Run (Heeded id) past s ∧ s.results.length = 1 ∧
    ∀ t ∈ visited past s, t.Latest := by
  have hstart : (machine id).Run (Heeded id) [] init := .init
  have hasked := hstart.extend askSubdl trivial rfl
  have hrun := hasked.extend (.replied 0 0 (some oneSubtitle)) (heeded_searched id rfl rfl) rfl
  exact ⟨_, _, hrun, rfl, run_latest id hrun⟩

-- The reply to the first of two searches shows its subtitle under the second.
theorem shows_earlier : ∃ past s, (machine id).Run (fun _ _ => True) past s ∧ ¬ s.Latest := by
  have hstart : (machine id).Run (fun _ _ => True) [] init := .init
  have hfirst := hstart.extend askSubdl trivial rfl
  have hsecond := hfirst.extend askSubdl trivial rfl
  have hrun := hsecond.extend (.replied 0 0 (some oneSubtitle)) trivial rfl
  refine ⟨_, _, hrun, fun h => ?_⟩
  have hfrom := h.results _ List.mem_cons_self
  exact absurd hfrom (by decide)

end Overlap

end Run

end BATorrent.SubtitleSearch
