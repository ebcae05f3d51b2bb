import BATorrent.Services.MetadataResolver.Serial

namespace BATorrent.MetadataResolver

open Lib Machine

-- What a request is for: a lookup, or the check of a film with what is cached of it.
def Request.job : Request → Option (InfoHash × Option MetadataResult)
  | .movieDetails result (.collection key) => some (key, some result)
  | r => r.key.map fun key => (key, none)

-- Whatever is queued, parked or on its way.
def State.jobs (s : State) : List (InfoHash × Option MetadataResult) :=
  s.queue.map (fun p => (p.1, none)) ++ s.igdbPending.map (fun p => (p.1, none)) ++ s.outstanding.filterMap Request.job

def State.jobsOf (s : State) (k : InfoHash) : List (Option MetadataResult) :=
  (s.jobs.filter fun p => p.1 = k).map Prod.snd

-- The same but for the collection.
def Same (x r : MetadataResult) : Prop :=
  { x with collectionId := r.collectionId, collectionChecked := r.collectionChecked } = r

def Signal.key : Signal → InfoHash
  | .metadataReady key _ => key
  | .manualResolveFailed key _ => key

-- What the user last did about a torrent: the outcome of the last action that had one, the query of the last
-- action if that was one, and what was signalled of the torrent since.
structure Chosen where
  choice : Option MetadataResult
  query : Option Text
  answers : List Signal

namespace Chosen

variable (k : InfoHash) (c : Chosen)

def Waits : Prop := c.query ≠ none ∧ c.answers = []

instance : Decidable c.Waits := inferInstanceAs (Decidable (_ ∧ _))

def noteOne (signal : Signal) : Chosen :=
  if signal.key = k then
    { c with
      answers := c.answers ++ [signal]
      choice :=
        match signal with
        | .metadataReady _ r => if c.Waits then some r else c.choice
        | .manualResolveFailed _ _ => c.choice }
  else c

def note (new : List Signal) : Chosen := new.foldl (noteOne k) c

-- The entry without a cover.
def blank (prev : MetadataResult) : MetadataResult :=
  if prev.valid then { contentType := prev.contentType, tmdbId := prev.tmdbId, valid := true }
  else { valid := true }

def acted (s : State) : Event → Chosen
  | .resolve _ _ _ => c
  | .batchResolve _ _ => c
  | .resolveManual _ infoHash query _ =>
      if canonicalInfoHash infoHash = k ∧ k.text ≠ [] then ⟨c.choice, some query, []⟩ else c
  | .clearMetadata infoHash =>
      if canonicalInfoHash infoHash = k ∧ k.text ≠ [] then ⟨some (blank ((s.cache k).getD {})), none, []⟩ else c
  | .timeout _ => c
  | .reply _ _ _ => c

-- Answered with the result, and after that only by checks of it.
def Found : Prop :=
  ∃ r later, c.answers = .metadataReady k r :: later ∧ c.choice = some r ∧
    ∀ signal ∈ later, ∃ r', signal = .metadataReady k r' ∧ Same r' r

-- Answered with the query, and after that only by lookups that began later.
def Failed (query : Text) : Prop :=
  ∃ later, c.answers = .manualResolveFailed k query :: later ∧ ∀ signal ∈ later, ∃ r, signal = .metadataReady k r

end Chosen

def chosen (k : InfoHash) : List (Reaction State Event Empty) → State → Chosen
  | [], _ => ⟨none, none, []⟩
  | r :: past, s =>
      ((chosen k past r.before).acted k r.before r.event).note k (s.signals.drop r.before.signals.length)

-- The choice is held once nothing is under way, and a resolveManual is answered once. While it waits for its
-- answer its own lookup is the only one, so that no other can answer it.
structure Wins (k : InfoHash) (c : Chosen) (s : State) : Prop where
  held : s.jobsOf k = [] → ∀ r ∈ c.choice, ∃ x, s.cache k = some x ∧ s.saved k = some x ∧ Same x r
  answered : ∀ query ∈ c.query, c.Waits ∨ c.Found k ∨ c.Failed k query
  own : c.Waits → s.jobsOf k = [none]

-- The torrents that a user's action is about.
def Event.acts : Event → List InfoHash
  | .resolveManual _ infoHash _ _ => [canonicalInfoHash infoHash]
  | .clearMetadata infoHash => [canonicalInfoHash infoHash]
  | _ => []

-- The torrents that are looked up without the user.
def Event.asks : Event → List InfoHash
  | .resolve _ infoHash _ => [canonicalInfoHash infoHash]
  | .batchResolve _ torrents => torrents.map fun torrent => canonicalInfoHash torrent.1
  | _ => []

-- The user acts while nothing is under way, nothing is looked up while the user has a choice or waits for one,
-- and no query of the user fails after an earlier choice.
structure Undisturbed (past : List (Reaction State Event Empty)) (r : Reaction State Event Empty) (s : State) : Prop where
  acts : ∀ k ∈ r.event.acts, r.before.jobsOf k = []
  asks : ∀ k ∈ r.event.asks, k.text ≠ [] → r.before.complete k = false →
    (chosen k past r.before).choice = none ∧ ¬ (chosen k past r.before).Waits
  fails : ∀ k query, .manualResolveFailed k query ∈ s.signals.drop r.before.signals.length →
    ((chosen k past r.before).acted k r.before r.event).Waits → (chosen k past r.before).choice = none

section Notes

variable {k : InfoHash} {c : Chosen}

theorem note_append (a b : List Signal) : c.note k (a ++ b) = (c.note k a).note k b := List.foldl_append

theorem noteOne_of_ne {signal : Signal} (h : signal.key ≠ k) : c.noteOne k signal = c := if_neg h

theorem noteOne_ready (c : Chosen) (r : MetadataResult) : c.noteOne k (.metadataReady k r) =
    { c with answers := c.answers ++ [.metadataReady k r], choice := if c.Waits then some r else c.choice } := if_pos rfl

theorem noteOne_failed (c : Chosen) (query : Text) : c.noteOne k (.manualResolveFailed k query) =
    { c with answers := c.answers ++ [.manualResolveFailed k query] } := if_pos rfl

theorem note_of_ne {new : List Signal} (h : ∀ signal ∈ new, signal.key ≠ k) : c.note k new = c := by
  induction new with
  | nil => rfl
  | cons signal new ih =>
      obtain ⟨hsignal, hnew⟩ := List.forall_mem_cons.mp h
      rw [Chosen.note, List.foldl_cons, noteOne_of_ne hsignal]
      exact ih hnew

-- What still waits has not been answered.
theorem note_of_waits {new : List Signal} (h : (c.note k new).Waits) : c.note k new = c := by
  induction new generalizing c with
  | nil => rfl
  | cons signal new ih =>
      have hfirst : c.note k (signal :: new) = (c.noteOne k signal).note k new := rfl
      rw [hfirst] at h ⊢
      have hsame := ih h
      rw [hsame] at h ⊢
      unfold Chosen.noteOne at h ⊢
      by_cases hkey : signal.key = k
      · rw [if_pos hkey] at h
        exact absurd h.2 (List.append_ne_nil_of_right_ne_nil _ (List.cons_ne_nil _ _))
      · rw [if_neg hkey]

-- An answer that nothing waits for leaves the choice.
theorem note_of_rests {new : List Signal} (h : ¬ c.Waits) : ¬ (c.note k new).Waits ∧ (c.note k new).choice = c.choice := by
  induction new generalizing c with
  | nil => exact ⟨h, rfl⟩
  | cons signal new ih =>
      have hone : ¬ (c.noteOne k signal).Waits ∧ (c.noteOne k signal).choice = c.choice := by
        unfold Chosen.noteOne
        split_ifs
        · refine ⟨fun hwaits => List.append_ne_nil_of_right_ne_nil _ (List.cons_ne_nil _ _) hwaits.2, ?_⟩
          cases signal <;> rfl
        · exact ⟨h, rfl⟩
      obtain ⟨hrests, hchoice⟩ := ih hone.1
      exact ⟨hrests, hchoice.trans hone.2⟩

end Notes

end BATorrent.MetadataResolver

namespace BATorrent.MetadataResolver

open Lib Machine

-- What holds of a torrent between two reactions.
structure Honours (k : InfoHash) (c : Chosen) (s : State) : Prop where
  waits : c.Waits → c.query = s.manualQueries k ∧ s.cache k = none ∧ s.jobsOf k = [none]
  rests : ¬ c.Waits → s.manualQueries k = none
  held : ¬ c.Waits → ∀ r ∈ c.choice, (∀ j ∈ s.jobsOf k, ∃ x, j = some x ∧ Same x r) ∧
    ∃ x, s.cache k = some x ∧ s.saved k = some x ∧ Same x r
  answered : ∀ query ∈ c.query, c.Waits ∨ c.Found k ∨ c.Failed k query

theorem Honours.wins {k : InfoHash} {c : Chosen} {s : State} (h : Honours k c s) : Wins k c s where
  held hjobs r hr := by
    by_cases hwaits : c.Waits
    · rw [(h.waits hwaits).2.2] at hjobs
      exact absurd hjobs (List.cons_ne_nil _ _)
    · exact (h.held hwaits r hr).2
  answered := h.answered
  own hwaits := (h.waits hwaits).2.2

section Jobs

variable {s t : State} {k key : InfoHash} {j : Option MetadataResult}

theorem jobsOf_perm (h : t.jobs.Perm s.jobs) (k : InfoHash) : (t.jobsOf k).Perm (s.jobsOf k) :=
  (h.filter _).map Prod.snd

theorem jobsOf_cons (h : s.jobs.Perm ((key, j) :: t.jobs)) : (s.jobsOf key).Perm (j :: t.jobsOf key) := by
  refine ((h.filter _).map Prod.snd).trans ?_
  rw [List.filter_cons_of_pos (by simp)]
  rfl

theorem jobsOf_cons_of_ne (h : s.jobs.Perm ((key, j) :: t.jobs)) (hne : k ≠ key) : (s.jobsOf k).Perm (t.jobsOf k) := by
  refine ((h.filter _).map Prod.snd).trans ?_
  rw [List.filter_cons_of_neg (by simpa using hne.symm)]
  rfl

theorem job_of_plain {r : Request} (hkey : r.key = some key) (hplain : r.isCheck = false) : r.job = some (key, none) := by
  unfold Request.job
  split
  · cases hplain
  · rw [hkey]
    rfl

theorem jobs_ask (s : State) (r : Request) : (s.ask r).jobs.Perm (r.job.toList ++ s.jobs) := by
  have hnew : (s.ask r).jobs = s.jobs ++ r.job.toList := by
    unfold State.jobs State.ask
    rw [List.append_assoc _ _ r.job.toList, List.filterMap_append]
    cases hjob : r.job <;> simp [hjob]
  rw [hnew]
  exact List.perm_append_comm

theorem jobs_without {i : Nat} {r : Request} (hi : s.outstanding[i]? = some r) :
    s.jobs.Perm (r.job.toList ++ (s.without i).jobs) := by
  obtain ⟨hlt, rfl⟩ := List.getElem?_eq_some_iff.mp hi
  have hperm := (List.getElem_cons_eraseIdx_perm hlt).symm.filterMap Request.job
  unfold State.jobs State.without
  refine ((hperm.append_left _)).trans ?_
  rw [List.filterMap_cons]
  cases (s.outstanding[i]).job with
  | none => exact List.Perm.refl _
  | some job => exact List.perm_middle

end Jobs

theorem Honours.congr {k : InfoHash} {c : Chosen} {s t : State} (h : Honours k c s) (hjobs : (t.jobsOf k).Perm (s.jobsOf k))
    (hcache : t.cache k = s.cache k) (hsaved : t.saved k = s.saved k)
    (hmanual : t.manualQueries k = s.manualQueries k) : Honours k c t where
  waits hwaits := by
    obtain ⟨hquery, hnone, hone⟩ := h.waits hwaits
    rw [hone] at hjobs
    exact ⟨hquery.trans hmanual.symm, hcache.trans hnone, List.perm_singleton.mp hjobs⟩
  rests hwaits := hmanual.trans (h.rests hwaits)
  held hwaits r hr := by
    obtain ⟨hchecks, x, hx, hx', hsame⟩ := h.held hwaits r hr
    exact ⟨fun j hj => hchecks j (hjobs.mem_iff.mp hj), x, hcache.trans hx, hsaved.trans hx', hsame⟩
  answered := h.answered

def Good (c : InfoHash → Chosen) (s : State) : Prop := ∀ k, Honours k (c k) s

-- No query fails that comes after a choice.
def Spared (c : InfoHash → Chosen) (new : List Signal) : Prop :=
  ∀ k query, .manualResolveFailed k query ∈ new → (c k).Waits → (c k).choice = none

-- What keeps the choices, with what it signals.
def Leads (s t : State) : Prop :=
  ∃ new, t.signals = s.signals ++ new ∧
    ∀ c, Good c s → Spared c new → Good (fun k => (c k).note k new) t

section Leads

variable {s t u : State} {key : InfoHash}

theorem Spared.note {c : InfoHash → Chosen} {a b : List Signal} (h : Spared c (a ++ b)) :
    Spared (fun k => (c k).note k a) b := by
  intro k query hfailed hwaits
  have hsame : (c k).note k a = c k := note_of_waits hwaits
  dsimp only at hwaits ⊢
  rw [hsame] at hwaits ⊢
  exact h k query (List.mem_append_right a hfailed) hwaits

theorem Leads.trans (h : Leads s t) (h' : Leads t u) : Leads s u := by
  obtain ⟨a, ha, hgood⟩ := h
  obtain ⟨b, hb, hgood'⟩ := h'
  refine ⟨a ++ b, by rw [hb, ha, List.append_assoc], fun c hc hspared => ?_⟩
  have hfirst := hgood c hc fun k query hfailed => hspared k query (List.mem_append_left b hfailed)
  have hboth := hgood' _ hfirst hspared.note
  intro k
  dsimp only
  rw [note_append]
  exact hboth k

-- What is neither a lookup nor known of a torrent.
theorem leads_of_same (hjobs : t.jobs.Perm s.jobs) (hcache : t.cache = s.cache) (hsaved : t.saved = s.saved)
    (hmanual : t.manualQueries = s.manualQueries) (hsignals : t.signals = s.signals) : Leads s t :=
  ⟨[], by rw [hsignals, List.append_nil], fun c hc _ k =>
    (hc k).congr (jobsOf_perm hjobs k) (congrFun hcache k) (congrFun hsaved k) (congrFun hmanual k)⟩

theorem leads_refl (s : State) : Leads s s := leads_of_same (List.Perm.refl _) rfl rfl rfl rfl

-- A lookup is taken from where it was.
structure Took (key : InfoHash) (j : Option MetadataResult) (s t : State) : Prop where
  jobs : s.jobs.Perm ((key, j) :: t.jobs)
  cache : t.cache = s.cache
  saved : t.saved = s.saved
  manual : t.manualQueries = s.manualQueries
  signals : t.signals = s.signals

-- Where a lookup is under way that is no check, a choice is not there yet.
theorem Honours.undecided {c : Chosen} (h : Honours key c s) (htook : Took key none s t) (hwaits : ¬ c.Waits) :
    c.choice = none := by
  refine Option.eq_none_iff_forall_not_mem.mpr fun r hr => ?_
  obtain ⟨x, hx, -⟩ := (h.held hwaits r hr).1 none ((jobsOf_cons htook.jobs).mem_iff.mpr List.mem_cons_self)
  cases hx

theorem Honours.last {c : Chosen} (h : Honours key c s) (htook : Took key none s t) (hwaits : c.Waits) :
    t.jobsOf key = [] := by
  have hperm := jobsOf_cons htook.jobs
  rw [(h.waits hwaits).2.2] at hperm
  have hone := List.singleton_perm.mp hperm
  exact (List.cons.inj hone).2.symm

theorem note_ready_of_waits {k : InfoHash} {c : Chosen} (r : MetadataResult) (h : c.Waits) :
    c.note k [.metadataReady k r] = ⟨some r, c.query, [.metadataReady k r]⟩ := by
  refine (noteOne_ready c r).trans ?_
  rw [if_pos h, h.2, List.nil_append]

theorem note_ready_of_rests {k : InfoHash} {c : Chosen} (r : MetadataResult) (h : ¬ c.Waits) :
    c.note k [.metadataReady k r] = { c with answers := c.answers ++ [.metadataReady k r] } := by
  refine (noteOne_ready c r).trans ?_
  rw [if_neg h]

theorem not_waits_of_answers {c : Chosen} {signal : Signal} (h : signal ∈ c.answers) : ¬ c.Waits := fun hwaits => by
  rw [hwaits.2] at h
  exact absurd h List.not_mem_nil

-- A signal for another torrent.
theorem note_other {k : InfoHash} {c : Chosen} {signal : Signal} (h : signal.key ≠ k) : c.note k [signal] = c :=
  noteOne_of_ne h

-- A lookup that ends with nothing.
theorem leads_finishLookup (htook : Took key none s t) : Leads s (t.finishLookup key) := by
  refine ⟨(s.manualQueries key).toList.map fun query => .manualResolveFailed key query, ?_, fun c hc hspared k => ?_⟩
  · unfold State.finishLookup
    dsimp only
    rw [htook.manual, htook.signals]
    cases s.manualQueries key with
    | none => exact (List.append_nil _).symm
    | some query => rfl
  · dsimp only
    by_cases hk : k = key
    · subst hk
      have hgood := hc k
      by_cases hwaits : (c k).Waits
      · obtain ⟨hquery, -, -⟩ := hgood.waits hwaits
        obtain ⟨query, hsome⟩ := Option.ne_none_iff_exists'.mp hwaits.1
        rw [← hquery, hsome] at hspared ⊢
        have hnone := hspared k query List.mem_cons_self hwaits
        have hnote : (c k).note k [.manualResolveFailed k query] = ⟨none, some query, [.manualResolveFailed k query]⟩ := by
          refine (noteOne_failed (c k) query).trans ?_
          rw [hwaits.2, hnone, hsome, List.nil_append]
        change Honours k ((c k).note k [.manualResolveFailed k query]) _
        rw [hnote]
        refine ⟨fun hstill => absurd hstill.2 (List.cons_ne_nil _ _), fun _ => Function.update_self .., nofun,
          fun q hq => ?_⟩
        obtain rfl := Option.some.inj hq
        exact .inr (.inr ⟨[], rfl, nofun⟩)
      · rw [hgood.rests hwaits]
        refine ⟨fun hstill => absurd hstill hwaits, fun _ => Function.update_self .., fun _ r hr => ?_, hgood.answered⟩
        have hr' : (c k).choice = some r := hr
        rw [hgood.undecided htook hwaits] at hr'
        cases hr'
    · have hother : (c k).note k ((s.manualQueries key).toList.map fun query => .manualResolveFailed key query) = c k := by
        refine note_of_ne fun signal hsignal => ?_
        obtain ⟨query, -, rfl⟩ := List.mem_map.mp hsignal
        exact Ne.symm hk
      rw [hother]
      refine (hc k).congr (jobsOf_cons_of_ne htook.jobs hk).symm (congrFun htook.cache k) (congrFun htook.saved k) ?_
      exact (Function.update_of_ne hk _ _).trans (congrFun htook.manual k)

-- A lookup that ends with a result.
theorem leads_settle (htook : Took key none s t) (r : MetadataResult) : Leads s (t.settle key r) := by
  have hmanual : (t.settle key r).manualQueries = Function.update t.manualQueries key none := by
    simp [State.settle, State.finishLookup, State.metadataReady, State.insert]
  refine ⟨[.metadataReady key r], ?_, fun c hc _ k => ?_⟩
  · simp [State.settle, State.finishLookup, State.metadataReady, State.insert, htook.signals]
  · dsimp only
    by_cases hk : k = key
    · subst hk
      have hgood := hc k
      have hrests : (t.settle k r).manualQueries k = none := by
        rw [hmanual]
        exact Function.update_self ..
      by_cases hwaits : (c k).Waits
      · rw [note_ready_of_waits r hwaits]
        refine ⟨fun hstill => absurd hstill.2 (List.cons_ne_nil _ _), fun _ => hrests, fun _ r' hr' => ?_,
          fun query _ => .inr (.inl ⟨r, [], rfl, rfl, nofun⟩)⟩
        obtain rfl := Option.some.inj hr'
        have hjobs : t.jobsOf k = [] := hgood.last htook hwaits
        change ((∀ j ∈ t.jobsOf k, _) ∧ _)
        exact ⟨by rw [hjobs]; exact nofun, r, Function.update_self .., Function.update_self .., rfl⟩
      · rw [note_ready_of_rests r hwaits]
        have hundecided := hgood.undecided htook hwaits
        have hanswers : ¬ Chosen.Waits { c k with answers := (c k).answers ++ [.metadataReady k r] } :=
          not_waits_of_answers (List.mem_append_right _ List.mem_cons_self)
        refine ⟨fun hstill => absurd hstill hanswers, fun _ => hrests, fun _ r' hr' => ?_, fun query hquery => ?_⟩
        · have hr'' : (c k).choice = some r' := hr'
          rw [hundecided] at hr''
          cases hr''
        · rcases hgood.answered query hquery with hstill | ⟨r', _, -, hchoice, -⟩ | ⟨later, hlater, hready⟩
          · exact absurd hstill hwaits
          · rw [hundecided] at hchoice
            cases hchoice
          · refine .inr (.inr ⟨later ++ [.metadataReady k r], ?_, fun signal hsignal => ?_⟩)
            · change (c k).answers ++ _ = _
              rw [hlater, List.cons_append]
            · rcases List.mem_append.mp hsignal with hsignal | hsignal
              · exact hready signal hsignal
              · exact ⟨r, List.mem_singleton.mp hsignal⟩
    · rw [note_other (show Signal.key (.metadataReady key r) ≠ k from Ne.symm hk)]
      refine (hc k).congr (jobsOf_cons_of_ne htook.jobs hk).symm ?_ ?_ ?_
      · exact (Function.update_of_ne hk _ _).trans (congrFun htook.cache k)
      · exact (Function.update_of_ne hk _ _).trans (congrFun htook.saved k)
      · rw [hmanual]
        exact (Function.update_of_ne hk _ _).trans (congrFun htook.manual k)

-- A lookup that goes on.
theorem leads_ask (htook : Took key none s t) {r : Request} (hjob : r.job = some (key, none)) : Leads s (t.ask r) := by
  have hjobs := jobs_ask t r
  rw [hjob] at hjobs
  exact leads_of_same (hjobs.trans htook.jobs.symm) htook.cache htook.saved htook.manual htook.signals

theorem Outcome.leads (htook : Took key none s t) (h : Outcome t key u) : Leads s u := by
  cases h with
  | launched r hkey hlookup hsought hplain =>
      exact (leads_ask htook (job_of_plain hkey hplain)).trans (leads_of_same (List.Perm.refl _) rfl rfl rfl rfl)
  | poster r => exact leads_ask htook rfl
  | parked parsed hsought =>
      have hparked : (t.park key parsed).jobs.Perm ((key, none) :: t.jobs) := by
        unfold State.jobs State.park
        simp only [List.map_append, List.map_cons, List.map_nil, List.append_assoc, List.singleton_append]
        rw [← List.append_assoc, ← List.append_assoc (t.queue.map _)]
        exact List.perm_middle
      exact leads_of_same ((jobs_ask _ _).trans (hparked.trans htook.jobs.symm)) htook.cache htook.saved htook.manual
        htook.signals
  | nothing => exact leads_finishLookup htook
  | settled r => exact leads_settle htook r

-- While a check is under way nothing waits, and a choice is what was checked.
theorem Honours.checked {c : Chosen} {x : MetadataResult} (h : Honours key c s) (htook : Took key (some x) s t) :
    ¬ c.Waits ∧ s.manualQueries key = none ∧ ∀ r ∈ c.choice, Same x r := by
  have hmem : some x ∈ s.jobsOf key := (jobsOf_cons htook.jobs).mem_iff.mpr List.mem_cons_self
  have hrests : ¬ c.Waits := fun hwaits => by
    rw [(h.waits hwaits).2.2] at hmem
    cases List.mem_singleton.mp hmem
  refine ⟨hrests, h.rests hrests, fun r hr => ?_⟩
  obtain ⟨y, hy, hsame⟩ := (h.held hrests r hr).1 (some x) hmem
  rw [Option.some.inj hy]
  exact hsame

theorem Same.trans {x y z : MetadataResult} (h : Same x y) (h' : Same y z) : Same x z := by
  unfold Same at h h' ⊢
  rw [← h', ← h]

-- The check is over without a change.
theorem leads_drop {x : MetadataResult} (htook : Took key (some x) s t) : Leads s t := by
  refine ⟨[], by rw [htook.signals, List.append_nil], fun c hc _ k => ?_⟩
  change Honours k (c k) t
  by_cases hk : k = key
  · subst hk
    obtain ⟨hrests, hmanual, -⟩ := (hc k).checked htook
    refine ⟨fun hwaits => absurd hwaits hrests, fun _ => (congrFun htook.manual k).trans hmanual, fun _ r hr => ?_,
      (hc k).answered⟩
    obtain ⟨hchecks, y, hy, hsaved, hsame⟩ := (hc k).held hrests r hr
    exact ⟨fun j hj => hchecks j ((jobsOf_cons htook.jobs).mem_iff.mpr (List.mem_cons_of_mem _ hj)), y,
      (congrFun htook.cache k).trans hy, (congrFun htook.saved k).trans hsaved, hsame⟩
  · exact (hc k).congr (jobsOf_cons_of_ne htook.jobs hk).symm (congrFun htook.cache k) (congrFun htook.saved k)
      (congrFun htook.manual k)

-- The check is over and its result is cached.
theorem leads_insert {x r : MetadataResult} (htook : Took key (some x) s t) (hsame : Same r x) :
    Leads s (t.insert key r) := by
  refine ⟨[], by rw [List.append_nil]; exact htook.signals, fun c hc _ k => ?_⟩
  change Honours k (c k) (t.insert key r)
  by_cases hk : k = key
  · subst hk
    obtain ⟨hrests, hmanual, hchoice⟩ := (hc k).checked htook
    refine ⟨fun hwaits => absurd hwaits hrests, fun _ => (congrFun htook.manual k).trans hmanual, fun _ r' hr' => ?_,
      (hc k).answered⟩
    obtain ⟨hchecks, -⟩ := (hc k).held hrests r' hr'
    exact ⟨fun j hj => hchecks j ((jobsOf_cons htook.jobs).mem_iff.mpr (List.mem_cons_of_mem _ hj)), r,
      Function.update_self .., Function.update_self .., hsame.trans (hchoice r' hr')⟩
  · refine (hc k).congr (jobsOf_cons_of_ne htook.jobs hk).symm ?_ ?_ (congrFun htook.manual k)
    · exact (Function.update_of_ne hk _ _).trans (congrFun htook.cache k)
    · exact (Function.update_of_ne hk _ _).trans (congrFun htook.saved k)

-- And said, since there is a collection.
theorem leads_ready {x r : MetadataResult} (htook : Took key (some x) s t) (hsame : Same r x) :
    Leads s ((t.insert key r).metadataReady key r) := by
  refine ⟨[.metadataReady key r], ?_, fun c hc _ k => ?_⟩
  · rw [← htook.signals]
    rfl
  · dsimp only
    by_cases hk : k = key
    · subst hk
      obtain ⟨hrests, -, hchoice⟩ := (hc k).checked htook
      rw [note_ready_of_rests r hrests]
      have hanswers : ¬ Chosen.Waits { c k with answers := (c k).answers ++ [.metadataReady k r] } :=
        not_waits_of_answers (List.mem_append_right _ List.mem_cons_self)
      refine ⟨fun hwaits => absurd hwaits hanswers, fun _ => Function.update_self .., fun _ r' hr' => ?_,
        fun query hquery => ?_⟩
      · obtain ⟨hchecks, -⟩ := (hc k).held hrests r' hr'
        exact ⟨fun j hj => hchecks j ((jobsOf_cons htook.jobs).mem_iff.mpr (List.mem_cons_of_mem _ hj)), r,
          Function.update_self .., Function.update_self .., hsame.trans (hchoice r' hr')⟩
      · rcases (hc k).answered query hquery with hwaits | ⟨r', later, hlater, hr', hready⟩ | ⟨later, hlater, hready⟩
        · exact absurd hwaits hrests
        · refine .inr (.inl ⟨r', later ++ [.metadataReady k r], ?_, hr', fun signal hsignal => ?_⟩)
          · change (c k).answers ++ _ = _
            rw [hlater, List.cons_append]
          · rcases List.mem_append.mp hsignal with hsignal | hsignal
            · exact hready signal hsignal
            · exact ⟨r, List.mem_singleton.mp hsignal, hsame.trans (hchoice r' hr')⟩
        · refine .inr (.inr ⟨later ++ [.metadataReady k r], ?_, fun signal hsignal => ?_⟩)
          · change (c k).answers ++ _ = _
            rw [hlater, List.cons_append]
          · rcases List.mem_append.mp hsignal with hsignal | hsignal
            · exact hready signal hsignal
            · exact ⟨r, List.mem_singleton.mp hsignal⟩
    · rw [note_other (show Signal.key (.metadataReady key r) ≠ k from Ne.symm hk)]
      refine (hc k).congr (jobsOf_cons_of_ne htook.jobs hk).symm ?_ ?_ ?_
      · exact (Function.update_of_ne hk _ _).trans (congrFun htook.cache k)
      · exact (Function.update_of_ne hk _ _).trans (congrFun htook.saved k)
      · exact (Function.update_of_ne hk _ _).trans (congrFun htook.manual k)

-- Where no query is pending, the end of a lookup changes nothing.
theorem leads_finished (hmanual : t.manualQueries key = none) : Leads t (t.finishLookup key) := by
  refine leads_of_same (List.Perm.refl _) rfl rfl ?_ ?_
  · change Function.update t.manualQueries key none = t.manualQueries
    rw [← hmanual, Function.update_eq_self]
  · unfold State.finishLookup
    rw [hmanual]

theorem signals_finishLookup (t : State) (key : InfoHash) : t.signals <+: (t.finishLookup key).signals := by
  unfold State.finishLookup
  cases t.manualQueries key with
  | none => exact List.prefix_refl _
  | some query => exact List.prefix_append _ _

theorem leads_checked {x r : MetadataResult} (htook : Took key (some x) s t) (hsame : Same r x) :
    Leads s ((if r.collectionChecked then
      if 0 < r.collectionId then (t.insert key r).metadataReady key r else t.insert key r
      else t).finishLookup key) := by
  cases hmanual : s.manualQueries key with
  | none =>
      have hnone : t.manualQueries key = none := (congrFun htook.manual key).trans hmanual
      split_ifs
      · exact (leads_ready htook hsame).trans (leads_finished (Function.update_self ..))
      · exact (leads_insert htook hsame).trans (leads_finished hnone)
      · exact (leads_drop htook).trans (leads_finished hnone)
  | some query =>
      have hnot : ∀ c, ¬ Good c s := fun c hc => by
        rw [((hc key).checked htook).2.1] at hmanual
        cases hmanual
      have hstart : s.signals <+: ((if r.collectionChecked then
          if 0 < r.collectionId then (t.insert key r).metadataReady key r else t.insert key r
          else t).finishLookup key).signals := by
        rw [← htook.signals]
        refine List.IsPrefix.trans ?_ (signals_finishLookup _ key)
        split_ifs
        · exact List.prefix_append _ _
        · exact List.prefix_refl _
        · exact List.prefix_refl _
      obtain ⟨new, hnew⟩ := hstart
      exact ⟨new, hnew.symm, fun c hc _ => absurd hc (hnot c)⟩

theorem leads_onCollection {x : MetadataResult} (htook : Took key (some x) s t) (env : Env) (answer : Option Body) :
    Leads s (t.onMovieDetails env x (.collection key) answer) := by
  unfold State.onMovieDetails
  cases answer.bind Body.collection with
  | none => exact leads_checked htook rfl
  | some id => exact leads_checked (r := { x with collectionId := id, collectionChecked := true }) htook rfl

end Leads

section Queue

variable {s t : State} {env : Env}

theorem jobs_check (s : State) (key : InfoHash) (c : MetadataResult) :
    (s.fetchTmdbMovieDetails c (.collection key)).jobs.Perm ((key, some c) :: s.jobs) := jobs_ask s _

theorem leads_nextCollection (s : State) (keys : List InfoHash) : Leads s (s.nextCollection keys) := by
  induction keys with
  | nil => exact leads_of_same (List.Perm.refl _) rfl rfl rfl rfl
  | cons key rest ih =>
      unfold State.nextCollection
      dsimp only
      split_ifs with hunchecked
      · refine ⟨[], (List.append_nil _).symm, fun c hc _ k => ?_⟩
        have hjobs := jobs_check { s with collectionQueue := rest } key ((s.cache key).getD {})
        have hgood := hc k
        change Honours k (c k) _
        by_cases hk : k = key
        · subst hk
          obtain ⟨x, hx⟩ : ∃ x, s.cache k = some x := by
            cases hcache : s.cache k with
            | none =>
                rw [hcache] at hunchecked
                exact absurd hunchecked (by decide)
            | some x => exact ⟨x, rfl⟩
          have hrests : ¬ (c k).Waits := fun hwaits => by
            rw [(hgood.waits hwaits).2.1] at hx
            cases hx
          refine ⟨fun hwaits => absurd hwaits hrests, hgood.rests, fun _ r hr => ?_, hgood.answered⟩
          obtain ⟨hchecks, y, hy, hsaved, hsame⟩ := hgood.held hrests r hr
          refine ⟨fun j hj => ?_, y, hy, hsaved, hsame⟩
          rcases List.mem_cons.mp ((jobsOf_cons hjobs).mem_iff.mp hj) with rfl | hj
          · rw [hy]
            exact ⟨y, rfl, hsame⟩
          · exact hchecks j hj
        · exact hgood.congr (jobsOf_cons_of_ne hjobs hk) rfl rfl rfl
      · exact ih

theorem took_queue {key : InfoHash} {parsed : ParsedName} {rest : List (InfoHash × ParsedName)}
    (hqueue : s.queue = (key, parsed) :: rest) : Took key none s { s with queue := rest } where
  jobs := by
    unfold State.jobs
    rw [hqueue]
    exact List.Perm.refl _
  cache := rfl
  saved := rfl
  manual := rfl
  signals := rfl

theorem leads_processQueue (env : Env) (s : State) : Leads s (s.processQueue env) := by
  unfold State.processQueue
  split_ifs with hbusy
  · exact leads_refl s
  · split
    · exact leads_nextCollection s s.collectionQueue
    · next key parsed rest hqueue => exact (outcome_lookup { s with queue := rest } key env parsed).leads (took_queue hqueue)

theorem leads_kick (env : Env) (s : State) : Leads s (s.kick env) := by
  unfold State.kick
  split_ifs
  · exact leads_processQueue env s
  · exact leads_refl s

theorem leads_queueCollectionCheck (env : Env) (s : State) (key : InfoHash) : Leads s (s.queueCollectionCheck env key) := by
  unfold State.queueCollectionCheck
  split_ifs
  · exact leads_refl s
  · refine Leads.trans ?_ (leads_kick env _)
    exact leads_of_same (List.Perm.refl _) rfl rfl rfl rfl

end Queue

section Replies

variable {s t : State} {env : Env} {i : Nat} {request : Request} {key : InfoHash} {j : Option MetadataResult}

theorem took_without (hi : s.outstanding[i]? = some request) (hjob : request.job = some (key, j)) :
    Took key j s (s.without i) where
  jobs := by
    have hjobs := jobs_without hi
    rw [hjob] at hjobs
    exact hjobs
  cache := rfl
  saved := rfl
  manual := rfl
  signals := rfl

theorem Took.landed (h : Took key j s t) : Took key j s t.landed := ⟨h.jobs, h.cache, h.saved, h.manual, h.signals⟩

theorem drainOne_cases (env : Env) (hsought : AllSought s) :
    Leads s (State.drainOne env s) ∧ AllSought (State.drainOne env s) := by
  unfold State.drainOne
  split
  · exact ⟨leads_refl s, hsought⟩
  · next key parsed rest hcons =>
      have hthis : Sought parsed := hsought.pending (key, parsed) (hcons ▸ List.mem_cons_self)
      have hrest : AllSought { s with igdbPending := rest } :=
        ⟨fun p hp => hsought.pending p (hcons ▸ List.mem_cons_of_mem _ hp), hsought.requests⟩
      have htook : Took key none s { s with igdbPending := rest } := by
        refine ⟨?_, rfl, rfl, rfl, rfl⟩
        unfold State.jobs
        rw [hcons, List.map_cons, List.append_assoc, List.cons_append, List.append_assoc]
        exact List.perm_middle
      have houtcome := outcome_queryIgdb { s with igdbPending := rest } key env hthis []
      exact ⟨houtcome.leads htook, houtcome.adds.sought hrest⟩

theorem iterate_cases (env : Env) (hsought : AllSought s) (n : Nat) :
    Leads s ((State.drainOne env)^[n] s) ∧ AllSought ((State.drainOne env)^[n] s) := by
  induction n with
  | zero => exact ⟨leads_refl s, hsought⟩
  | succ n ih =>
      obtain ⟨hleads, hall⟩ := ih
      rw [Function.iterate_succ_apply']
      obtain ⟨hone, hall'⟩ := drainOne_cases env hall
      exact ⟨hleads.trans hone, hall'⟩

theorem onToken_cases (answer : Option Body) (hsought : AllSought s) :
    Leads s (s.onToken env answer) ∧ AllSought (s.onToken env answer) := by
  cases answer with
  | none => exact ⟨leads_refl s, hsought⟩
  | some b =>
      unfold State.onToken State.drain
      dsimp only
      generalize hu : ({ s with
        igdbAccessToken := b.accessToken
        igdbTokenExpiry := env.now + b.expiresIn - 60 } : State) = u
      have hsame : Leads s u := by
        rw [← hu]
        exact leads_of_same (List.Perm.refl _) rfl rfl rfl rfl
      have hsought' : AllSought u := by
        rw [← hu]
        exact ⟨hsought.pending, hsought.requests⟩
      obtain ⟨hleads, hall⟩ := iterate_cases env hsought' s.igdbPending.length
      refine ⟨(hsame.trans hleads).trans ?_, ⟨hall.pending, hall.requests⟩⟩
      exact leads_of_same (List.Perm.refl _) rfl rfl rfl rfl

theorem leads_onReply (m : MetadataMatch) (env : Env) (answer : Option Body) (hsought : AllSought s)
    (hi : s.outstanding[i]? = some request) : Leads s ((s.without i).onReply m env answer request) := by
  cases request with
  | token =>
      have hjobs := jobs_without hi
      refine Leads.trans ?_ (onToken_cases answer (sought_without i hsought)).1
      exact leads_of_same hjobs.symm rfl rfl rfl rfl
  | igdb key parsed queryTitle =>
      exact (outcome_onIgdb _ key m env answer (hsought.requests _ (List.mem_of_getElem? hi)) _).leads
        (took_without hi rfl).landed
  | movie key parsed => exact (outcome_onMovie _ key m answer parsed).leads (took_without hi rfl).landed
  | movieDetails result done =>
      cases done with
      | film key posterPath => exact (outcome_onFilm _ key env answer result posterPath).leads (took_without hi rfl).landed
      | collection key => exact leads_onCollection (took_without hi rfl).landed env answer
  | tv key parsed => exact (outcome_onTv _ key m env answer parsed).leads (took_without hi rfl).landed
  | overviewEn result key posterPath => exact (outcome_finish _ key posterPath _).leads (took_without hi rfl).landed
  | steamItems key => exact (outcome_onSteamItems _ key answer).leads (took_without hi rfl).landed
  | steamSearch key parsed =>
      have htook : Took key none s (s.without i) := took_without hi rfl
      change Leads s ((s.without i).onSteamSearch key answer)
      unfold State.onSteamSearch
      split_ifs
      · exact leads_finishLookup htook.landed
      · exact leads_ask htook rfl
  | poster key part => exact leads_settle (took_without hi rfl) _

end Replies

section Asks

variable {s t u : State} {env : Env} {key : InfoHash}

-- What keeps the choices where nobody minds.
def LeadsWhen (P : (InfoHash → Chosen) → Prop) (s t : State) : Prop :=
  ∃ new, t.signals = s.signals ++ new ∧
    ∀ c, Good c s → Spared c new → P c → Good (fun k => (c k).note k new) t

-- The user has no choice, and waits for none.
def Chosen.Open (c : Chosen) : Prop := c.choice = none ∧ ¬ c.Waits

theorem Chosen.Open.note {k : InfoHash} {c : Chosen} (h : c.Open) (new : List Signal) : (c.note k new).Open := by
  obtain ⟨hrests, hchoice⟩ : ¬ (c.note k new).Waits ∧ (c.note k new).choice = c.choice := note_of_rests h.2
  exact ⟨hchoice.trans h.1, hrests⟩

theorem Leads.when (h : Leads s t) (P : (InfoHash → Chosen) → Prop) : LeadsWhen P s t := by
  obtain ⟨new, hnew, hgood⟩ := h
  exact ⟨new, hnew, fun c hc hspared _ => hgood c hc hspared⟩

theorem LeadsWhen.trans {P Q R : (InfoHash → Chosen) → Prop} (h : LeadsWhen P s t) (h' : LeadsWhen Q t u)
    (hp : ∀ c, R c → P c) (hq : ∀ c new, R c → Q fun k => (c k).note k new) : LeadsWhen R s u := by
  obtain ⟨a, ha, hgood⟩ := h
  obtain ⟨b, hb, hgood'⟩ := h'
  refine ⟨a ++ b, by rw [hb, ha, List.append_assoc], fun c hc hspared hr => ?_⟩
  have hfirst := hgood c hc (fun k query hfailed => hspared k query (List.mem_append_left b hfailed)) (hp c hr)
  have hboth := hgood' _ hfirst hspared.note (hq c a hr)
  intro k
  dsimp only
  rw [note_append]
  exact hboth k

theorem jobs_enqueue (s : State) (key : InfoHash) (parsed : ParsedName) :
    (s.enqueue key parsed).jobs.Perm ((key, none) :: s.jobs) := by
  unfold State.jobs State.enqueue
  simp only [List.map_append, List.map_cons, List.map_nil, List.append_assoc, List.singleton_append]
  exact List.perm_middle

theorem leads_enqueue (s : State) (key : InfoHash) (parsed : ParsedName) :
    LeadsWhen (fun c => (c key).Open) s (s.enqueue key parsed) := by
  refine ⟨[], (List.append_nil _).symm, fun c hc _ hopen k => ?_⟩
  have hjobs := jobs_enqueue s key parsed
  change Honours k (c k) _
  by_cases hk : k = key
  · subst hk
    refine ⟨fun hwaits => absurd hwaits hopen.2, (hc k).rests, fun _ r hr => ?_, (hc k).answered⟩
    have hr' : (c k).choice = some r := hr
    rw [hopen.1] at hr'
    cases hr'
  · exact (hc k).congr (jobsOf_cons_of_ne hjobs hk) rfl rfl rfl

theorem leads_resolve (env : Env) (s : State) (infoHash : Text) (parsed : ParsedName) :
    LeadsWhen (fun c => (canonicalInfoHash infoHash).text ≠ [] → s.complete (canonicalInfoHash infoHash) = false →
      (c (canonicalInfoHash infoHash)).Open) s (s.resolve env infoHash parsed) := by
  unfold State.resolve
  dsimp only
  split_ifs with hempty hcomplete
  · exact (leads_refl s).when _
  · exact (leads_queueCollectionCheck env s _).when _
  · exact (leads_enqueue s _ parsed).trans ((leads_kick env _).when fun _ => True)
      (fun c hopen => hopen hempty (Bool.eq_false_iff.mpr hcomplete)) fun _ _ _ => trivial

theorem cache_lookup (env : Env) (s : State) (key : InfoHash) (parsed : ParsedName) :
    (s.lookup env key parsed).cache = s.cache := by
  have hwithout : (s.withoutIgdb key parsed).cache = s.cache := by
    unfold State.withoutIgdb
    cases parsed.contentType <;> rfl
  have higdb : (s.queryIgdb env key parsed []).cache = s.cache := by
    unfold State.queryIgdb State.ensureIgdbToken
    split_ifs
    · exact hwithout
    all_goals rfl
  unfold State.lookup
  cases parsed.contentType with
  | series => rfl
  | movie => rfl
  | game => exact higdb
  | unknown => exact higdb

theorem cache_nextCollection (s : State) (keys : List InfoHash) : (s.nextCollection keys).cache = s.cache := by
  induction keys with
  | nil => rfl
  | cons key rest ih =>
      unfold State.nextCollection
      dsimp only
      split_ifs
      · rfl
      · exact ih

theorem cache_batchAdd (env : Env) (s : State) (torrent : Text × ParsedName) :
    (State.batchAdd env s torrent).cache = s.cache := by
  have hprocess : ∀ t : State, (t.processQueue env).cache = t.cache := by
    intro t
    unfold State.processQueue
    split_ifs
    · rfl
    · split
      · exact cache_nextCollection t t.collectionQueue
      · exact cache_lookup env _ _ _
  unfold State.batchAdd State.queueCollectionCheck State.kick
  dsimp only
  split_ifs
  · rfl
  · rfl
  · exact hprocess _
  · rfl
  · rfl

theorem leads_batchAdd (env : Env) (s : State) (torrent : Text × ParsedName) :
    LeadsWhen (fun c => (canonicalInfoHash torrent.1).text ≠ [] → s.complete (canonicalInfoHash torrent.1) = false →
      (c (canonicalInfoHash torrent.1)).Open) s (State.batchAdd env s torrent) := by
  unfold State.batchAdd
  dsimp only
  split_ifs with hempty hcomplete
  · exact (leads_refl s).when _
  · exact (leads_queueCollectionCheck env s _).when _
  · exact (leads_enqueue s _ torrent.2).trans ((leads_refl _).when fun _ => True)
      (fun c hopen => hopen hempty (Bool.eq_false_iff.mpr hcomplete)) fun _ _ _ => trivial

theorem leads_batch (env : Env) (torrents : List (Text × ParsedName)) (s : State) :
    LeadsWhen (fun c => ∀ torrent ∈ torrents, (canonicalInfoHash torrent.1).text ≠ [] →
      s.complete (canonicalInfoHash torrent.1) = false → (c (canonicalInfoHash torrent.1)).Open) s
      (torrents.foldl (State.batchAdd env) s) := by
  induction torrents generalizing s with
  | nil => exact (leads_refl s).when _
  | cons torrent torrents ih =>
      refine (leads_batchAdd env s torrent).trans (ih _) (fun c hopen => hopen torrent List.mem_cons_self)
        fun c new hopen later hlater hempty hcomplete => ?_
      refine (hopen later (List.mem_cons_of_mem _ hlater) hempty ?_).note new
      unfold State.complete at hcomplete ⊢
      rwa [cache_batchAdd] at hcomplete

theorem leads_batchResolve (env : Env) (s : State) (torrents : List (Text × ParsedName)) :
    LeadsWhen (fun c => ∀ torrent ∈ torrents, (canonicalInfoHash torrent.1).text ≠ [] →
      s.complete (canonicalInfoHash torrent.1) = false → (c (canonicalInfoHash torrent.1)).Open) s
      (s.batchResolve env torrents) := by
  unfold State.batchResolve
  dsimp only
  split_ifs
  · exact (leads_batch env torrents s).trans ((leads_kick env _).when fun _ => True) (fun _ => id) fun _ _ _ => trivial
  · exact leads_batch env torrents s

end Asks

section Actions

variable {s t : State} {c : InfoHash → Chosen}

-- The user's action is what is known of the torrent from here on.
theorem good_clearMetadata (hgood : Good c s) (infoHash : Text) (hidle : s.jobsOf (canonicalInfoHash infoHash) = []) :
    ∃ new, (s.clearMetadata infoHash).signals = s.signals ++ new ∧
      Good (fun k => ((c k).acted k s (.clearMetadata infoHash)).note k new) (s.clearMetadata infoHash) := by
  unfold State.clearMetadata
  dsimp only
  by_cases hempty : (canonicalInfoHash infoHash).text = []
  · rw [if_pos hempty]
    refine ⟨[], (List.append_nil _).symm, fun k => ?_⟩
    have hacted : (c k).acted k s (.clearMetadata infoHash) = c k :=
      if_neg fun ⟨hk, hne⟩ => hne (hk ▸ hempty)
    change Honours k ((c k).acted k s (.clearMetadata infoHash)) s
    rw [hacted]
    exact hgood k
  · rw [if_neg hempty]
    change ∃ new, (State.metadataReady (s.insert (canonicalInfoHash infoHash)
      (Chosen.blank ((s.cache (canonicalInfoHash infoHash)).getD {}))) (canonicalInfoHash infoHash)
      (Chosen.blank ((s.cache (canonicalInfoHash infoHash)).getD {}))).signals = s.signals ++ new ∧ _
    refine ⟨_, rfl, fun k => ?_⟩
    dsimp only
    by_cases hk : k = canonicalInfoHash infoHash
    · subst hk
      have hacted : (c (canonicalInfoHash infoHash)).acted (canonicalInfoHash infoHash) s (.clearMetadata infoHash) =
          ⟨some (Chosen.blank ((s.cache (canonicalInfoHash infoHash)).getD {})), none, []⟩ := if_pos ⟨rfl, hempty⟩
      rw [hacted, note_ready_of_rests _ fun hwaits => hwaits.1 rfl]
      refine ⟨fun hwaits => absurd rfl hwaits.1, fun _ => Function.update_self .., fun _ r hr => ?_, nofun⟩
      obtain rfl := Option.some.inj hr
      refine ⟨?_, _, Function.update_self .., Function.update_self .., rfl⟩
      change ∀ j ∈ s.jobsOf (canonicalInfoHash infoHash), _
      rw [hidle]
      exact nofun
    · have hacted : (c k).acted k s (.clearMetadata infoHash) = c k := if_neg fun h => hk h.1.symm
      rw [hacted, note_other (Ne.symm hk)]
      exact (hgood k).congr (List.Perm.refl _) (Function.update_of_ne hk _ _) (Function.update_of_ne hk _ _)
        (Function.update_of_ne hk _ _)

theorem good_resolveManual (hgood : Good c s) (env : Env) (infoHash query : Text) (parsed : ParsedName)
    (hidle : s.jobsOf (canonicalInfoHash infoHash) = []) :
    ∃ new, (s.resolveManual env infoHash query parsed).signals = s.signals ++ new ∧
      (Spared (fun k => (c k).acted k s (.resolveManual env infoHash query parsed)) new →
        Good (fun k => ((c k).acted k s (.resolveManual env infoHash query parsed)).note k new)
          (s.resolveManual env infoHash query parsed)) := by
  unfold State.resolveManual
  dsimp only
  by_cases hempty : (canonicalInfoHash infoHash).text = []
  · rw [if_pos hempty]
    refine ⟨[], (List.append_nil _).symm, fun _ k => ?_⟩
    have hacted : (c k).acted k s (.resolveManual env infoHash query parsed) = c k :=
      if_neg fun ⟨hk, hne⟩ => hne (hk ▸ hempty)
    change Honours k ((c k).acted k s (.resolveManual env infoHash query parsed)) s
    rw [hacted]
    exact hgood k
  · rw [if_neg hempty]
    generalize hkey : canonicalInfoHash infoHash = key at hidle hempty ⊢
    have hjobs := jobs_enqueue { s with
      cache := Function.update s.cache key none
      manualQueries := Function.update s.manualQueries key (some query) } key parsed
    have hstart : Good (fun k => (c k).acted k s (.resolveManual env infoHash query parsed))
        (State.enqueue { s with
          cache := Function.update s.cache key none
          manualQueries := Function.update s.manualQueries key (some query) } key parsed) := by
      intro k
      dsimp only
      by_cases hk : k = key
      · subst hk
        have hacted : (c k).acted k s (.resolveManual env infoHash query parsed) = ⟨(c k).choice, some query, []⟩ :=
          if_pos ⟨hkey, hempty⟩
        have hwaits : Chosen.Waits ⟨(c k).choice, some query, []⟩ := ⟨Option.some_ne_none _, rfl⟩
        rw [hacted]
        have hquery : Function.update s.manualQueries k (some query) k = some query := Function.update_self ..
        refine ⟨fun _ => ⟨hquery.symm, Function.update_self .., ?_⟩, fun hrests => absurd hwaits hrests,
          fun hrests => absurd hwaits hrests, fun _ _ => .inl hwaits⟩
        refine List.perm_singleton.mp ((jobsOf_cons hjobs).trans ?_)
        change (none :: s.jobsOf k).Perm [none]
        rw [hidle]
      · have hacted : (c k).acted k s (.resolveManual env infoHash query parsed) = c k :=
          if_neg fun h => hk (h.1.symm.trans hkey)
        rw [hacted]
        exact (hgood k).congr (jobsOf_cons_of_ne hjobs hk) (Function.update_of_ne hk _ _) rfl
          (Function.update_of_ne hk _ _)
    obtain ⟨new, hnew, hleads⟩ := leads_kick env (State.enqueue { s with
      cache := Function.update s.cache key none
      manualQueries := Function.update s.manualQueries key (some query) } key parsed)
    exact ⟨new, hnew, fun hspared => hleads _ hstart hspared⟩

end Actions

section Runs

variable {m : MetadataMatch} {s t : State} {c : InfoHash → Chosen}

theorem good_next {e : Event} (hgood : Good c s) (hsought : AllSought s) (hnext : s.next m e = some t)
    (hacts : ∀ k ∈ e.acts, s.jobsOf k = [])
    (hasks : ∀ k ∈ e.asks, k.text ≠ [] → s.complete k = false → (c k).Open) :
    ∃ new, t.signals = s.signals ++ new ∧ (Spared (fun k => (c k).acted k s e) new →
      Good (fun k => ((c k).acted k s e).note k new) t) := by
  unfold State.next at hnext
  by_cases hhung : s.hung = true
  · rw [if_pos hhung] at hnext
    cases hnext
  rw [if_neg hhung] at hnext
  cases e with
  | resolve env infoHash parsed =>
      cases hnext
      obtain ⟨new, hnew, hleads⟩ := leads_resolve env s infoHash parsed
      exact ⟨new, hnew, fun hspared => hleads c hgood hspared (hasks _ List.mem_cons_self)⟩
  | batchResolve env torrents =>
      cases hnext
      obtain ⟨new, hnew, hleads⟩ := leads_batchResolve env s torrents
      exact ⟨new, hnew, fun hspared => hleads c hgood hspared fun torrent htorrent =>
        hasks _ (List.mem_map_of_mem htorrent)⟩
  | resolveManual env infoHash query parsed =>
      cases hnext
      exact good_resolveManual hgood env infoHash query parsed (hacts _ List.mem_cons_self)
  | clearMetadata infoHash =>
      cases hnext
      obtain ⟨new, hnew, hclear⟩ := good_clearMetadata hgood infoHash (hacts _ List.mem_cons_self)
      exact ⟨new, hnew, fun _ => hclear⟩
  | timeout env =>
      dsimp only at hnext
      split_ifs at hnext
      obtain rfl := Option.some.inj hnext
      obtain ⟨new, hnew, hleads⟩ := leads_processQueue env { s with timer := false }
      have hgood' : Good c { s with timer := false } := fun k => (hgood k).congr (List.Perm.refl _) rfl rfl rfl
      exact ⟨new, hnew, fun hspared => hleads c hgood' hspared⟩
  | reply env i answer =>
      obtain ⟨request, hi, rfl⟩ := Option.map_eq_some_iff.mp hnext
      obtain ⟨new, hnew, hleads⟩ := leads_onReply m env answer hsought hi
      exact ⟨new, hnew, fun hspared => hleads c hgood hspared⟩

theorem sought_next {e : Event} (hsought : AllSought s) (hnext : s.next m e = some t) : AllSought t := by
  unfold State.next at hnext
  by_cases hhung : s.hung = true
  · rw [if_pos hhung] at hnext
    cases hnext
  rw [if_neg hhung] at hnext
  cases e with
  | resolve env infoHash parsed =>
      cases hnext
      exact (keeps_resolve env s infoHash parsed).sought hsought
  | batchResolve env torrents =>
      cases hnext
      exact (keeps_batchResolve env s torrents).sought hsought
  | resolveManual env infoHash query parsed =>
      cases hnext
      exact (keeps_resolveManual env s infoHash query parsed).sought hsought
  | clearMetadata infoHash =>
      cases hnext
      exact (keeps_clearMetadata s infoHash).sought hsought
  | timeout env =>
      dsimp only at hnext
      split_ifs at hnext
      obtain rfl := Option.some.inj hnext
      exact (keeps_processQueue env { s with timer := false }).sought ⟨hsought.pending, hsought.requests⟩
  | reply env i answer =>
      obtain ⟨request, hi, rfl⟩ := Option.map_eq_some_iff.mp hnext
      by_cases htoken : request = .token
      · subst htoken
        exact (onToken_cases answer (sought_without i hsought)).2
      · exact (keeps_onReply m env answer hsought hi htoken).sought hsought

-- An action that waits for its outcome leaves the choice there was.
theorem acted_choice {k : InfoHash} {c : Chosen} {e : Event} (h : (c.acted k s e).Waits) : (c.acted k s e).choice = c.choice := by
  cases e with
  | resolveManual env infoHash query parsed =>
      unfold Chosen.acted
      dsimp only
      split_ifs <;> rfl
  | clearMetadata infoHash =>
      unfold Chosen.acted at h ⊢
      dsimp only at h ⊢
      split_ifs at h ⊢ with hacts
      · exact absurd rfl h.1
      · rfl
  | _ => rfl

theorem good_run (m : MetadataMatch) (cache : InfoHash → Option MetadataResult)
    {past : List (Reaction State Event Empty)} {s : State} (hrun : (machine m cache).Run (fun _ _ => True) past s)
    (hcond : eachStep Undisturbed past s) : Good (fun k => chosen k past s) s ∧ AllSought s := by
  induction hrun with
  | init =>
      refine ⟨fun k => ⟨fun hwaits => absurd rfl hwaits.1, fun _ => rfl, nofun, nofun⟩, nofun, nofun⟩
  | @step past s t e out hrun _ hnext ih =>
      obtain ⟨hlast, hearlier⟩ := hcond
      obtain ⟨hgood, hsought⟩ := ih hearlier
      obtain ⟨t', ht, heq⟩ := Option.map_eq_some_iff.mp hnext
      obtain ⟨rfl, -⟩ := Prod.mk.inj heq
      refine ⟨?_, sought_next hsought ht⟩
      obtain ⟨new, hnew, hstep⟩ := good_next hgood hsought ht hlast.acts hlast.asks
      have hdrop : t'.signals.drop s.signals.length = new := by rw [hnew, List.drop_left]
      have hspared : Spared (fun k => (chosen k past s).acted k s e) new := by
        intro k query hfailed hwaits
        exact (acted_choice hwaits).trans (hlast.fails k query (hdrop.symm ▸ hfailed) hwaits)
      have hnext := hstep hspared
      intro k
      change Honours k (((chosen k past s).acted k s e).note k (t'.signals.drop s.signals.length)) t'
      rw [hdrop]
      exact hnext k

def film : ParsedName := ⟨['f'], 0, .movie⟩

def filmFound : Body := { results := [⟨['F'], [], [], 0⟩] }

def keyA : InfoHash := canonicalInfoHash ['a']

end Runs

end BATorrent.MetadataResolver
