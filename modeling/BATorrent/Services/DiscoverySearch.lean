import BATorrent.Lib.DataStream
import BATorrent.Lib.KeepFirst
import BATorrent.Lib.StableOrder

namespace BATorrent.DiscoverySearch

open Lib.DataStream (QString)
open Lib.KeepFirst (keepFirst)
open Lib.StableOrder (stableSort)

def units (s : String) : QString := s.toList.map fun c => UInt16.ofNat c.toNat

-- The rest of what the map of a work holds is its card.
structure Work (Rating Card : Type) where
  title : QString
  year : QString
  type : QString
  rating : Rating
  card : Card
  deriving DecidableEq

variable {Rating Card : Type}

def Work.isGame (w : Work Rating Card) : Bool := w.type = units "game"

section Rank

-- QString::toLower, and >= of two doubles.
variable (toLower : QString → QString) (atLeast : Rating → Rating → Bool)

def score (query : QString) (w : Work Rating Card) : Nat :=
  let ql := toLower query
  let t := toLower w.title
  if t = ql then 0
  else if ql.isPrefixOf t then 1
  else if ql <:+: t then 2
  else 3

-- Whether the game is taken before the video.
def leads (query : QString) (game video : Work Rating Card) : Bool :=
  let sg := score toLower query game
  let sv := score toLower query video
  sg < sv || (sg = sv && atLeast game.rating video.rating)

-- The loop takes one work a pass.
def mergeLoop (query : QString) :
    Nat → List (Work Rating Card) → List (Work Rating Card) → List (Work Rating Card)
  | 0, _, _ => []
  | _ + 1, [], [] => []
  | n + 1, g :: games, [] => g :: mergeLoop query n games []
  | n + 1, [], v :: vids => v :: mergeLoop query n [] vids
  | n + 1, g :: games, v :: vids =>
      if leads toLower atLeast query g v then
        g :: mergeLoop query n games (v :: vids)
      else
        v :: mergeLoop query n (g :: games) vids

def key (w : Work Rating Card) : QString :=
  toLower w.title ++ units "|" ++ w.year ++ units "|" ++ w.type

def rankAndMerge (query : QString) (works : List (Work Rating Card)) : List (Work Rating Card) :=
  let vids := stableSort (score toLower query) (works.filter fun w => !w.isGame)
  let games := stableSort (score toLower query) (works.filter fun w => w.isGame)
  let merged := mergeLoop toLower atLeast query (games.length + vids.length) games vids
  keepFirst (key toLower) [] merged

end Rank

end BATorrent.DiscoverySearch

namespace BATorrent.DiscoverySearch

open Lib.DataStream (QString)
open Lib.KeepFirst (keepFirst keepFirst_sublist mem_keys nodup_keys)
open Lib.StableOrder (stableSort stableSort_perm stableSort_sorted filter_stableSort)

variable {Rating Card : Type} (toLower : QString → QString) (atLeast : Rating → Rating → Bool) (query : QString)

section Merge

variable {toLower atLeast query} {games vids : List (Work Rating Card)} {n : Nat}

theorem leads_score {g v : Work Rating Card} (h : leads toLower atLeast query g v = true) :
    score toLower query g ≤ score toLower query v := by
  unfold leads at h
  simp only [Bool.or_eq_true, Bool.and_eq_true, decide_eq_true_eq] at h
  omega

theorem not_leads_score {g v : Work Rating Card} (h : ¬ leads toLower atLeast query g v = true) :
    score toLower query v ≤ score toLower query g := by
  unfold leads at h
  simp only [Bool.or_eq_true, Bool.and_eq_true, decide_eq_true_eq, not_or] at h
  omega

theorem mergeLoop_perm (hn : games.length + vids.length ≤ n) :
    (mergeLoop toLower atLeast query n games vids).Perm (games ++ vids) := by
  induction n generalizing games vids with
  | zero =>
      rw [List.eq_nil_of_length_eq_zero (show games.length = 0 by omega),
        List.eq_nil_of_length_eq_zero (show vids.length = 0 by omega)]
      exact List.Perm.nil
  | succ n ih =>
      cases games with
      | nil =>
          cases vids with
          | nil => exact List.Perm.nil
          | cons v vids =>
              rw [List.length_cons] at hn
              exact (ih (by omega)).cons v
      | cons g games =>
          cases vids with
          | nil =>
              rw [List.length_cons] at hn
              exact (ih (by omega)).cons g
          | cons v vids =>
              rw [List.length_cons, List.length_cons] at hn
              rw [mergeLoop]
              split
              · exact (ih (by rw [List.length_cons]; omega)).cons g
              · have hfuel : (g :: games).length + vids.length ≤ n := by rw [List.length_cons]; omega
                exact ((ih hfuel).cons v).trans List.perm_middle.symm

-- The ratings decide between equal scores only.
theorem mergeLoop_sorted (hn : games.length + vids.length ≤ n)
    (hgames : games.Pairwise fun a b => score toLower query a ≤ score toLower query b)
    (hvids : vids.Pairwise fun a b => score toLower query a ≤ score toLower query b) :
    (mergeLoop toLower atLeast query n games vids).Pairwise
      fun a b => score toLower query a ≤ score toLower query b := by
  induction n generalizing games vids with
  | zero => exact List.Pairwise.nil
  | succ n ih =>
      cases games with
      | nil =>
          cases vids with
          | nil => exact List.Pairwise.nil
          | cons v vids =>
              rw [List.length_cons] at hn
              obtain ⟨hv, hvids⟩ := List.pairwise_cons.mp hvids
              refine List.pairwise_cons.mpr ⟨fun w hw => ?_, ih (by omega) hgames hvids⟩
              exact hv w (by simpa using (mergeLoop_perm (by omega)).mem_iff.mp hw)
      | cons g games =>
          cases vids with
          | nil =>
              rw [List.length_cons] at hn
              obtain ⟨hg, hgames⟩ := List.pairwise_cons.mp hgames
              refine List.pairwise_cons.mpr ⟨fun w hw => ?_, ih (by omega) hgames hvids⟩
              exact hg w (by simpa using (mergeLoop_perm (by omega)).mem_iff.mp hw)
          | cons v vids =>
              rw [List.length_cons, List.length_cons] at hn
              obtain ⟨hg, hgames'⟩ := List.pairwise_cons.mp hgames
              obtain ⟨hv, hvids'⟩ := List.pairwise_cons.mp hvids
              rw [mergeLoop]
              split
              · next hlead =>
                have hfuel : games.length + (v :: vids).length ≤ n := by rw [List.length_cons]; omega
                have hle := leads_score hlead
                refine List.pairwise_cons.mpr ⟨fun w hw => ?_, ih hfuel hgames' hvids⟩
                rcases List.mem_append.mp ((mergeLoop_perm hfuel).mem_iff.mp hw) with hw | hw
                · exact hg w hw
                · rcases List.mem_cons.mp hw with rfl | hw
                  · exact hle
                  · exact Nat.le_trans hle (hv w hw)
              · next hlead =>
                have hfuel : (g :: games).length + vids.length ≤ n := by rw [List.length_cons]; omega
                have hle := not_leads_score hlead
                refine List.pairwise_cons.mpr ⟨fun w hw => ?_, ih hfuel hgames hvids'⟩
                rcases List.mem_append.mp ((mergeLoop_perm hfuel).mem_iff.mp hw) with hw | hw
                · rcases List.mem_cons.mp hw with rfl | hw
                  · exact hle
                  · exact Nat.le_trans hle (hg w hw)
                · exact hv w hw

-- The merge leaves each of the two lists in its order.
theorem filter_mergeLoop (hn : games.length + vids.length ≤ n) (hgames : ∀ g ∈ games, g.isGame = true)
    (hvids : ∀ v ∈ vids, v.isGame = false) (game : Bool) :
    (mergeLoop toLower atLeast query n games vids).filter (fun w => w.isGame = game) =
      if game then games else vids := by
  induction n generalizing games vids with
  | zero =>
      rw [List.eq_nil_of_length_eq_zero (show games.length = 0 by omega),
        List.eq_nil_of_length_eq_zero (show vids.length = 0 by omega)]
      exact (ite_self []).symm
  | succ n ih =>
      cases games with
      | nil =>
          cases vids with
          | nil => exact (ite_self []).symm
          | cons v vids =>
              rw [List.length_cons] at hn
              obtain ⟨hv, hvids⟩ := List.forall_mem_cons.mp hvids
              rw [mergeLoop, List.filter_cons, hv, ih (by omega) hgames hvids]
              cases game <;> rfl
      | cons g games =>
          obtain ⟨hg, hgames'⟩ := List.forall_mem_cons.mp hgames
          cases vids with
          | nil =>
              rw [List.length_cons] at hn
              rw [mergeLoop, List.filter_cons, hg, ih (by omega) hgames' hvids]
              cases game <;> rfl
          | cons v vids =>
              obtain ⟨hv, hvids'⟩ := List.forall_mem_cons.mp hvids
              rw [List.length_cons, List.length_cons] at hn
              rw [mergeLoop]
              split
              · rw [List.filter_cons, hg, ih (by rw [List.length_cons]; omega) hgames' hvids]
                cases game <;> rfl
              · rw [List.filter_cons, hv, ih (by rw [List.length_cons]; omega) hgames hvids']
                cases game <;> rfl

end Merge

def triple (w : Work Rating Card) : QString × QString × QString := (toLower w.title, w.year, w.type)

-- What the list shown for a query owes to the works that were found.
structure Ranks (works out : List (Work Rating Card)) : Prop where
  sorted : out.Pairwise fun a b => score toLower query a ≤ score toLower query b
  once : ∀ w ∈ works, (out.filter fun e => triple toLower e = triple toLower w).length = 1
  none_else : ∀ e ∈ out, e ∈ works
  keeps_order : ∀ game k, (out.filter fun w => w.isGame = game ∧ score toLower query w = k).Sublist works

-- No two works that differ in the three parts have one key.
def KeysApart (works : List (Work Rating Card)) : Prop :=
  ∀ a ∈ works, ∀ b ∈ works, key toLower a = key toLower b → triple toLower a = triple toLower b

section Ranked

variable (works : List (Work Rating Card))

-- What is merged, before the repeats go.
def merged : List (Work Rating Card) :=
  let vids := stableSort (score toLower query) (works.filter fun w => !w.isGame)
  let games := stableSort (score toLower query) (works.filter fun w => w.isGame)
  mergeLoop toLower atLeast query (games.length + vids.length) games vids

theorem rankAndMerge_eq :
    rankAndMerge toLower atLeast query works =
      keepFirst (key toLower) [] (merged toLower atLeast query works) := rfl

theorem merged_perm : (merged toLower atLeast query works).Perm works := by
  apply (mergeLoop_perm (Nat.le_refl _)).trans
  apply ((stableSort_perm _ _).append (stableSort_perm _ _)).trans
  exact List.filter_append_perm (fun w : Work Rating Card => w.isGame) works

theorem merged_sorted :
    (merged toLower atLeast query works).Pairwise fun a b => score toLower query a ≤ score toLower query b :=
  mergeLoop_sorted (Nat.le_refl _) (stableSort_sorted _ _) (stableSort_sorted _ _)

theorem filter_merged (game : Bool) (k : Nat) :
    (merged toLower atLeast query works).filter (fun w => w.isGame = game ∧ score toLower query w = k) =
      works.filter fun w => w.isGame = game ∧ score toLower query w = k := by
  have hgames : ∀ g ∈ stableSort (score toLower query) (works.filter fun w => w.isGame), g.isGame = true := by
    intro g hg
    exact (List.mem_filter.mp ((stableSort_perm _ _).mem_iff.mp hg)).2
  have hvids : ∀ v ∈ stableSort (score toLower query) (works.filter fun w => !w.isGame), v.isGame = false := by
    intro v hv
    simpa using (List.mem_filter.mp ((stableSort_perm _ _).mem_iff.mp hv)).2
  have hsplit : ∀ ws : List (Work Rating Card),
      ws.filter (fun w => decide (w.isGame = game ∧ score toLower query w = k)) =
        (ws.filter fun w => w.isGame = game).filter fun w => score toLower query w = k := by
    intro ws
    rw [List.filter_filter]
    apply List.filter_congr
    intro w _
    rw [Bool.decide_and, Bool.and_comm]
  rw [hsplit, hsplit, merged]
  rw [filter_mergeLoop (Nat.le_refl _) hgames hvids game]
  cases game with
  | true =>
      rw [if_pos rfl, filter_stableSort]
      simp
  | false =>
      rw [if_neg Bool.false_ne_true, filter_stableSort]
      simp

theorem rankAndMerge_sublist :
    (rankAndMerge toLower atLeast query works).Sublist (merged toLower atLeast query works) :=
  keepFirst_sublist (key toLower) [] _

theorem mem_of_shown {e : Work Rating Card} (he : e ∈ rankAndMerge toLower atLeast query works) : e ∈ works :=
  (merged_perm toLower atLeast query works).mem_iff.mp ((rankAndMerge_sublist toLower atLeast query works).subset he)

theorem key_of_triple {toLower : QString → QString} {a b : Work Rating Card}
    (h : triple toLower a = triple toLower b) :
    key toLower a = key toLower b := by
  obtain ⟨htitle, hrest⟩ := Prod.mk.inj h
  obtain ⟨hyear, htype⟩ := Prod.mk.inj hrest
  rw [key, key, htitle, hyear, htype]

-- The works shown with one key: a single one.
theorem one_of_key {w : Work Rating Card} (hw : w ∈ works) :
    ((rankAndMerge toLower atLeast query works).filter fun e => key toLower e = key toLower w).length = 1 := by
  have hnodup := nodup_keys (key toLower) [] (merged toLower atLeast query works)
  have hmem : key toLower w ∈ (rankAndMerge toLower atLeast query works).map (key toLower) :=
    (mem_keys (key toLower)).mpr
      ⟨List.mem_map_of_mem ((merged_perm toLower atLeast query works).mem_iff.mpr hw), List.not_mem_nil⟩
  have hcount := List.count_eq_one_of_mem hnodup hmem
  rw [← rankAndMerge_eq toLower atLeast query, List.count_eq_length_filter, List.filter_map,
    List.length_map] at hcount
  rw [← hcount]
  congr 1
  apply List.filter_congr
  intro e _
  exact (beq_eq_decide _ _).symm

theorem rankAndMerge_ranks (h : KeysApart toLower works) :
    Ranks toLower query works (rankAndMerge toLower atLeast query works) where
  sorted :=
    (merged_sorted toLower atLeast query works).sublist (rankAndMerge_sublist toLower atLeast query works)
  none_else _ he := mem_of_shown toLower atLeast query works he
  keeps_order game k := by
    have hsub := (rankAndMerge_sublist toLower atLeast query works).filter
      fun w => decide (w.isGame = game ∧ score toLower query w = k)
    rw [filter_merged] at hsub
    exact hsub.trans List.filter_sublist
  once w hw := by
    rw [← one_of_key toLower atLeast query works hw]
    congr 1
    apply List.filter_congr
    intro e he
    exact decide_eq_decide.mpr ⟨key_of_triple, h e (mem_of_shown toLower atLeast query works he) w hw⟩

-- Two works with one key and different parts leave one of the two out.
theorem keysApart_of_once
    (h : ∀ w ∈ works, ((rankAndMerge toLower atLeast query works).filter
      fun e => triple toLower e = triple toLower w).length = 1) :
    KeysApart toLower works := by
  intro a ha b hb hkey
  by_contra hne
  obtain ⟨ea, hea⟩ := List.length_eq_one_iff.mp (h a ha)
  obtain ⟨eb, heb⟩ := List.length_eq_one_iff.mp (h b hb)
  obtain ⟨e, he⟩ := List.length_eq_one_iff.mp (one_of_key toLower atLeast query works ha)
  have hfilter : ∀ {w f : Work Rating Card},
      (rankAndMerge toLower atLeast query works).filter (fun e => triple toLower e = triple toLower w) = [f] →
        f ∈ rankAndMerge toLower atLeast query works ∧ triple toLower f = triple toLower w := by
    intro w f hf
    have hmem : f ∈ (rankAndMerge toLower atLeast query works).filter
        fun e => triple toLower e = triple toLower w := by
      rw [hf]
      exact List.mem_singleton_self f
    exact ⟨(List.mem_filter.mp hmem).1, of_decide_eq_true (List.mem_filter.mp hmem).2⟩
  have hsame : ∀ {f : Work Rating Card}, f ∈ rankAndMerge toLower atLeast query works →
      key toLower f = key toLower a → f = e := by
    intro f hf hkey
    have hmem : f ∈ (rankAndMerge toLower atLeast query works).filter fun e => key toLower e = key toLower a :=
      List.mem_filter.mpr ⟨hf, decide_eq_true hkey⟩
    rw [he] at hmem
    exact List.mem_singleton.mp hmem
  obtain ⟨hina, hta⟩ := hfilter hea
  obtain ⟨hinb, htb⟩ := hfilter heb
  have hfirst : ea = e := hsame hina (key_of_triple hta)
  have hsecond : eb = e := hsame hinb ((key_of_triple htb).trans hkey.symm)
  have hboth : ea = eb := hfirst.trans hsecond.symm
  exact hne (hta.symm.trans ((congrArg (triple toLower) hboth).trans htb))

-- Only the order of the videos and that of the games count.
theorem rankAndMerge_congr {works' : List (Work Rating Card)}
    (hgames : works'.filter (fun w => w.isGame) = works.filter fun w => w.isGame)
    (hvids : works'.filter (fun w => !w.isGame) = works.filter fun w => !w.isGame) :
    rankAndMerge toLower atLeast query works' = rankAndMerge toLower atLeast query works := by
  rw [rankAndMerge, rankAndMerge, hgames, hvids]

end Ranked

end BATorrent.DiscoverySearch

namespace BATorrent.DiscoverySearch

open Lib.DataStream (QString)

variable {Rating Card : Type}

-- A result of the film catalog; what is missing reads as empty.
structure TmdbResult (Rating Card : Type) where
  mediaType : QString
  title : QString
  name : QString
  posterPath : QString
  releaseDate : QString
  firstAirDate : QString
  voteAverage : Rating
  card : Card

structure IgdbResult (Rating Card : Type) where
  name : QString
  coverImageId : QString
  firstReleaseDate : Int
  totalRating : Rating
  card : Card

def yearFromDate (date : QString) : QString := if 4 ≤ date.length then date.take 4 else []

def catalogCard (o : TmdbResult Rating Card) (isTv : Bool) : Option (Work Rating Card) :=
  if o.posterPath = [] then
    none
  else
    some {
      title := if isTv then o.name else o.title
      year := yearFromDate (if isTv then o.firstAirDate else o.releaseDate)
      type := if isTv then units "series" else units "movie"
      rating := o.voteAverage
      card := o.card }

def multiSearchRows (results : List (TmdbResult Rating Card)) : List (Work Rating Card) :=
  results.filterMap fun o =>
    if o.mediaType ≠ units "movie" ∧ o.mediaType ≠ units "tv" then
      none
    else
      catalogCard o (o.mediaType = units "tv")

section Igdb

-- The year of a time as text, and a rating out of a hundred as one out of ten.
variable (yearOf : Int → QString) (tenth : Rating → Rating)

def titleRow (o : IgdbResult Rating Card) : Work Rating Card where
  title := o.name
  year := if 0 < o.firstReleaseDate then yearOf o.firstReleaseDate else []
  type := units "game"
  rating := tenth o.totalRating
  card := o.card

def titleSearchRows (results : List (IgdbResult Rating Card)) : List (Work Rating Card) :=
  (results.filter fun o => o.coverImageId ≠ [] ∧ o.name ≠ []).map (titleRow yearOf tenth)

end Igdb

-- The service's part of a search, with the lists it emitted.
structure Search (Rating Card : Type) where
  pending : Int
  query : QString
  works : List (Work Rating Card)
  titleResults : List (QString × List (Work Rating Card))

-- An answer is none when the catalog reported an error or gave no token.
inductive Answer (Rating Card : Type) where
  | tmdb (results : Option (List (TmdbResult Rating Card)))
  | igdb (results : Option (List (IgdbResult Rating Card)))

section Answers

variable (toLower : QString → QString) (atLeast : Rating → Rating → Bool) (yearOf : Int → QString)
  (tenth : Rating → Rating)

def ingestTmdbSearch (works : List (Work Rating Card)) : Option (List (TmdbResult Rating Card)) →
    List (Work Rating Card)
  | some results => works ++ multiSearchRows results
  | none => works

def ingestIgdbSearch (works : List (Work Rating Card)) : Option (List (IgdbResult Rating Card)) →
    List (Work Rating Card)
  | some results => works ++ titleSearchRows yearOf tenth results
  | none => works

def maybeFinishSearch (s : Search Rating Card) : Search Rating Card :=
  let s := { s with pending := s.pending - 1 }
  if 0 < s.pending then
    s
  else
    { s with titleResults := s.titleResults ++ [(s.query, rankAndMerge toLower atLeast s.query s.works)] }

def answer (s : Search Rating Card) : Answer Rating Card → Search Rating Card
  | .tmdb results => maybeFinishSearch toLower atLeast { s with works := ingestTmdbSearch s.works results }
  | .igdb results =>
      maybeFinishSearch toLower atLeast { s with works := ingestIgdbSearch yearOf tenth s.works results }

-- With the keys of both catalogs.
def searchTitles (query : QString) : Search Rating Card where
  pending := 2
  query := query
  works := []
  titleResults := []

def shown (query : QString) (answers : List (Answer Rating Card)) : List (QString × List (Work Rating Card)) :=
  (answers.foldl (answer toLower atLeast yearOf tenth) (searchTitles query)).titleResults

theorem multiSearchRows_videos (results : List (TmdbResult Rating Card)) :
    ∀ w ∈ multiSearchRows results, w.isGame = false := by
  intro w hw
  obtain ⟨o, _, ho⟩ := List.mem_filterMap.mp hw
  split at ho
  · cases ho
  · unfold catalogCard at ho
    split at ho
    · cases ho
    · cases ho
      unfold Work.isGame
      dsimp only
      split <;> decide

theorem titleSearchRows_games (results : List (IgdbResult Rating Card)) :
    ∀ w ∈ titleSearchRows yearOf tenth results, w.isGame = true := by
  intro w hw
  obtain ⟨o, _, rfl⟩ := List.mem_map.mp hw
  exact decide_eq_true rfl

theorem ingestTmdbSearch_append (works : List (Work Rating Card))
    (results : Option (List (TmdbResult Rating Card))) :
    ∃ vids, ingestTmdbSearch works results = works ++ vids ∧ ingestTmdbSearch [] results = vids ∧
      ∀ v ∈ vids, v.isGame = false := by
  cases results with
  | none => exact ⟨[], (List.append_nil works).symm, rfl, fun v hv => absurd hv List.not_mem_nil⟩
  | some results => exact ⟨multiSearchRows results, rfl, rfl, multiSearchRows_videos results⟩

theorem ingestIgdbSearch_append (works : List (Work Rating Card))
    (results : Option (List (IgdbResult Rating Card))) :
    ∃ games, ingestIgdbSearch yearOf tenth works results = works ++ games ∧
      ingestIgdbSearch yearOf tenth [] results = games ∧ ∀ g ∈ games, g.isGame = true := by
  cases results with
  | none => exact ⟨[], (List.append_nil works).symm, rfl, fun v hv => absurd hv List.not_mem_nil⟩
  | some results =>
      exact ⟨titleSearchRows yearOf tenth results, rfl, rfl, titleSearchRows_games yearOf tenth results⟩

-- Whichever catalog answers first, one list is shown, and it is the same.
theorem shown_comm (query : QString) (tmdb : Option (List (TmdbResult Rating Card)))
    (igdb : Option (List (IgdbResult Rating Card))) :
    shown toLower atLeast yearOf tenth query [.tmdb tmdb, .igdb igdb] =
      shown toLower atLeast yearOf tenth query [.igdb igdb, .tmdb tmdb] := by
  obtain ⟨games, hgames, hgames', hgame⟩ :=
    ingestIgdbSearch_append yearOf tenth (ingestTmdbSearch [] tmdb) igdb
  obtain ⟨vids, hvids, hvids', hvideo⟩ :=
    ingestTmdbSearch_append (ingestIgdbSearch yearOf tenth [] igdb) tmdb
  have hfirst : shown toLower atLeast yearOf tenth query [.tmdb tmdb, .igdb igdb] =
      [(query, rankAndMerge toLower atLeast query (vids ++ games))] := by
    rw [← hvids', ← hgames]
    rfl
  have hsecond : shown toLower atLeast yearOf tenth query [.igdb igdb, .tmdb tmdb] =
      [(query, rankAndMerge toLower atLeast query (games ++ vids))] := by
    rw [← hgames', ← hvids]
    rfl
  have hno : ∀ v ∈ vids, ¬ v.isGame = true := fun v hv => by rw [hvideo v hv]; exact Bool.false_ne_true
  have hno' : ∀ g ∈ games, ¬ (!g.isGame) = true := fun g hg => by rw [hgame g hg]; exact Bool.false_ne_true
  rw [hfirst, hsecond]
  congr 2
  apply rankAndMerge_congr
  · rw [List.filter_append, List.filter_append, List.filter_eq_nil_iff.mpr hno, List.nil_append,
      List.append_nil]
  · rw [List.filter_append, List.filter_append, List.filter_eq_nil_iff.mpr hno', List.nil_append,
      List.append_nil]

-- The list for a query is ranked, each work once, by the order of the videos and that of the games
-- alone, just when no two works that differ share the key with the bars.
theorem ranked_iff (query : QString) (works : List (Work Rating Card)) :
    (Ranks toLower query works (rankAndMerge toLower atLeast query works) ∧
      (∀ works' : List (Work Rating Card),
        works'.filter (fun w => w.isGame) = works.filter (fun w => w.isGame) →
        works'.filter (fun w => !w.isGame) = works.filter (fun w => !w.isGame) →
        rankAndMerge toLower atLeast query works' = rankAndMerge toLower atLeast query works) ∧
      ∀ (tmdb : Option (List (TmdbResult Rating Card))) (igdb : Option (List (IgdbResult Rating Card))),
        shown toLower atLeast yearOf tenth query [.tmdb tmdb, .igdb igdb] =
          shown toLower atLeast yearOf tenth query [.igdb igdb, .tmdb tmdb]) ↔
      KeysApart toLower works := by
  constructor
  · rintro ⟨hranks, _, _⟩
    exact keysApart_of_once toLower atLeast query works hranks.once
  · intro h
    refine ⟨rankAndMerge_ranks toLower atLeast query works h, ?_, shown_comm toLower atLeast yearOf tenth query⟩
    intro works' hgames hvids
    exact rankAndMerge_congr toLower atLeast query works hgames hvids

end Answers

-- Two films of one reply: the first has "abc|" for its year, the second none.
def barredYear : List (TmdbResult Nat Unit) :=
  [⟨units "movie", units "a", [], units "/a.jpg", units "abc|-01-01", [], 8, ()⟩,
    ⟨units "movie", units "a|abc", [], units "/b.jpg", [], [], 7, ()⟩]

theorem drops_barred_title : ¬ ∀ w ∈ multiSearchRows barredYear,
    ((rankAndMerge id (fun a b => decide (b ≤ a)) (units "a") (multiSearchRows barredYear)).filter
      fun e => triple id e = triple id w).length = 1 := by
  decide

end BATorrent.DiscoverySearch
