import BATorrent.Lib.KeepFirst
import BATorrent.Services.AchievementLedger

namespace BATorrent.AchievementLedger

open Lib

section Times

def time (games : Games) (g : Int32) (name : Text) : Option Int :=
  (games.lookup g).bind (·.unlocks.lookup name)

def combine (mine theirs : Option Int) : Option Int :=
  match mine, theirs with
  | none, theirs => theirs
  | mine, none => mine
  | some mine, some theirs => some (earliest mine theirs)

theorem combine_none (mine : Option Int) : combine mine none = mine := by cases mine <;> rfl

-- Of some times that were seen for one unlock, one that no known time comes before.
def IsEarliest (seen : List Int) (t : Int) : Prop := t ∈ seen ∧ ∀ s ∈ seen, 0 < s → 0 < t ∧ t ≤ s

-- A time as far as it is known.
def known (t : Int) : Option Int := if 0 < t then some t else none

variable {seen seen' : List Int} {s t t' : Int}

theorem earliest_mem (s t : Int) : earliest s t = s ∨ earliest s t = t := by
  unfold earliest
  split_ifs with hs ht
  · exact .inr rfl
  · exact .inl rfl
  · omega

theorem IsEarliest.earliest (ht : IsEarliest seen t) (ht' : IsEarliest seen' t') :
    IsEarliest (seen ++ seen') (earliest t t') := by
  obtain ⟨hmem, hfirst⟩ := ht
  obtain ⟨hmem', hfirst'⟩ := ht'
  refine ⟨?_, fun s hs hpos => ?_⟩
  · rcases earliest_mem t t' with h | h
    · rw [h]
      exact List.mem_append_left _ hmem
    · rw [h]
      exact List.mem_append_right _ hmem'
  · have hone : 0 < t ∧ t ≤ s ∨ 0 < t' ∧ t' ≤ s := by
      rcases List.mem_append.mp hs with hs | hs
      · exact .inl (hfirst s hs hpos)
      · exact .inr (hfirst' s hs hpos)
    unfold AchievementLedger.earliest
    split_ifs with hunknown hunknown' <;> omega

theorem IsEarliest.known_eq (ht : IsEarliest seen t) (ht' : IsEarliest seen' t')
    (hsame : ∀ s, s ∈ seen ↔ s ∈ seen') : known t = known t' := by
  have hto := ht.2 t' ((hsame t').mpr ht'.1)
  have hfro := ht'.2 t ((hsame t).mp ht.1)
  unfold known
  split_ifs with h h'
  · rw [Option.some_inj]
    omega
  · exact absurd (hfro h).1 h'
  · exact absurd (hto (by assumption)).1 h
  · rfl

-- What a ledger holds of an unlock against the times that were seen of it.
def Holds (seen : List Int) (held : Option Int) : Prop :=
  match held with
  | none => seen = []
  | some t => IsEarliest seen t

theorem holds_toList (held : Option Int) : Holds held.toList held := by
  cases held with
  | none => exact rfl
  | some t =>
      refine ⟨List.mem_singleton_self t, fun s hs hpos => ?_⟩
      obtain rfl := List.mem_singleton.mp hs
      exact ⟨hpos, Int.le_refl s⟩

theorem Holds.combine {held held' : Option Int} (h : Holds seen held) (h' : Holds seen' held') :
    Holds (seen ++ seen') (combine held held') := by
  match held, held', h, h' with
  | none, none, h, h' => exact List.append_eq_nil_iff.mpr ⟨h, h'⟩
  | none, some t, h, h' =>
      obtain rfl : seen = [] := h
      exact h'
  | some t, none, h, h' =>
      obtain rfl : seen' = [] := h'
      rw [List.append_nil]
      exact h
  | some t, some t', h, h' => exact h.earliest h'

end Times

section Folding

theorem lookup_foldUnlock {us : List (Σ _ : Text, Int)} (hus : us.NodupKeys) (mine : Unlocks × Nat) (name : Text) :
    (us.foldl foldUnlock mine).1.lookup name = combine (mine.1.lookup name) (us.dlookup name) := by
  have hself : ∀ (mine : Unlocks × Nat) (u : Σ _ : Text, Int),
      (foldUnlock mine u).1.lookup u.1 = combine (mine.1.lookup u.1) (some u.2) := by
    intro mine u
    unfold foldUnlock
    cases mine.1.lookup u.1 with
    | none => exact AList.lookup_insert _
    | some had => exact AList.lookup_insert _
  have hother : ∀ (mine : Unlocks × Nat) (u : Σ _ : Text, Int) name, name ≠ u.1 →
      (foldUnlock mine u).1.lookup name = mine.1.lookup name := by
    intro mine u name hne
    unfold foldUnlock
    cases mine.1.lookup u.1 with
    | none => exact AList.lookup_insert_ne hne
    | some had => exact AList.lookup_insert_ne hne
  rw [FoldKeys.look_foldl (fun mine name => mine.1.lookup name) foldUnlock (fun _ had t => combine had (some t))
    hself hother hus]
  cases us.dlookup name with
  | none => exact (combine_none _).symm
  | some t => rfl

theorem time_fold (into other : Games) (g : Int32) (name : Text) :
    time (fold into other).1 g name = combine (time into g name) (time other g name) := by
  have hself : ∀ (into : Games × Nat) (e : Σ _ : Int32, Game), time (foldGame into e).1 e.1 =
      fun name => combine (time into.1 e.1 name) (e.2.unlocks.lookup name) := by
    intro into e
    funext name
    have hus := lookup_foldUnlock e.2.unlocks.nodupKeys (((into.1.lookup e.1).getD ⟨[], ∅⟩).unlocks, into.2) name
    unfold time foldGame
    dsimp only
    rw [AList.lookup_insert, Option.bind_some]
    dsimp only
    rw [hus]
    cases into.1.lookup e.1 with
    | none => rfl
    | some mine => rfl
  have hother : ∀ (into : Games × Nat) (e : Σ _ : Int32, Game) g, g ≠ e.1 →
      time (foldGame into e).1 g = time into.1 g := by
    intro into e g hne
    funext name
    unfold time foldGame
    dsimp only
    rw [AList.lookup_insert_ne hne]
  have hfold := FoldKeys.look_foldl (fun (into : Games × Nat) g => time into.1 g) foldGame
    (fun _ had game => fun name => combine (had name) (game.unlocks.lookup name)) hself hother other.nodupKeys (into, 0) g
  have hname := congrFun hfold name
  dsimp only at hname
  rw [fold, hname]
  change _ = combine _ ((other.entries.dlookup g).bind (·.unlocks.lookup name))
  cases other.entries.dlookup g with
  | none => exact (combine_none _).symm
  | some game => rfl

end Folding

section Storing

variable (wild : Int → Int)

theorem toInt_number (g : Int32) : toInt (Text.number g.toInt) = some g := by
  have hlow := g.le_toInt
  have hhigh := g.toInt_lt
  rw [toInt, Text.signed?_number]
  dsimp only
  rw [if_pos ⟨hlow, hhigh⟩, Int32.ofInt_toInt]

theorem games_toJson (games : Games) : value (toJson games) "games".toList =
    .object (games.entries.map fun g => (Text.number g.1.toInt, .object (gameObject g.2))) := by
  simp [value, toJson, List.lookup_cons]

theorem unlocks_gameObject (g : Game) : value (gameObject g) "unlocks".toList =
    .object (g.unlocks.entries.map fun u => (u.1, .number (double u.2))) := by
  unfold gameObject
  split_ifs <;> simp [value, List.lookup_cons]

def stored (t : Int) : Int := qint64 wild (double t)

def storedUnlocks (unlocks : Unlocks) : Unlocks :=
  (unlocks.entries.map fun u => (u.1, Json.number (double u.2))).foldl (readUnlock wild) ∅

theorem lookup_storedUnlocks (unlocks : Unlocks) (name : Text) : (storedUnlocks wild unlocks).lookup name =
    if name = [] then none else (unlocks.lookup name).map (stored wild) := by
  let turn (read : Unlocks) (u : Σ _ : Text, Int) : Unlocks := readUnlock wild read (u.1, .number (double u.2))
  have hself : ∀ (read : Unlocks) (u : Σ _ : Text, Int),
      (turn read u).lookup u.1 = if u.1 = [] then read.lookup u.1 else some (stored wild u.2) := by
    intro read u
    change (readUnlock wild read _).lookup u.1 = _
    unfold readUnlock
    split_ifs
    · rfl
    · exact AList.lookup_insert _
  have hother : ∀ (read : Unlocks) (u : Σ _ : Text, Int) name, name ≠ u.1 →
      (turn read u).lookup name = read.lookup name := by
    intro read u name hne
    change (readUnlock wild read _).lookup name = _
    unfold readUnlock
    split_ifs
    · rfl
    · exact AList.lookup_insert_ne hne
  have hread := FoldKeys.look_foldl (fun (read : Unlocks) name => read.lookup name) turn
    (fun name had t => if name = [] then had else some (stored wild t)) hself hother unlocks.nodupKeys ∅ name
  rw [storedUnlocks, List.foldl_map]
  refine hread.trans ?_
  change _ = if name = [] then none else (unlocks.entries.dlookup name).map (stored wild)
  cases unlocks.entries.dlookup name with
  | none => split_ifs <;> rfl
  | some t => rfl

theorem readGame_written (parsed : Games) (g : Int32) (game : Game) :
    readGame wild parsed (Text.number g.toInt, .object (gameObject game)) =
      if g ≤ 0 then parsed
      else if (storedUnlocks wild game.unlocks).entries = [] then parsed
      else parsed.insert g ⟨(value (gameObject game) "title".toList).toString, storedUnlocks wild game.unlocks⟩ := by
  unfold readGame
  rw [toInt_number]
  dsimp only
  rw [Json.toObject, unlocks_gameObject]
  rfl

-- What is read back is what was written, but for what has no app id or no name.
theorem time_stored (games : Games) (g : Int32) (name : Text) :
    time ((fromJson wild (toJson games)).getD ∅) g name =
      if g ≤ 0 ∨ name = [] then none else (time games g name).map (stored wild) := by
  let turn (parsed : Games) (e : Σ _ : Int32, Game) : Games :=
    readGame wild parsed (Text.number e.1.toInt, .object (gameObject e.2))
  let entry (had : Text → Option Int) (game : Game) : Text → Option Int :=
    if (storedUnlocks wild game.unlocks).entries = [] then had else fun name => (storedUnlocks wild game.unlocks).lookup name
  have hself : ∀ (parsed : Games) (e : Σ _ : Int32, Game),
      time (turn parsed e) e.1 = if e.1 ≤ 0 then time parsed e.1 else entry (time parsed e.1) e.2 := by
    intro parsed e
    change time (readGame wild parsed _) e.1 = if e.1 ≤ 0 then _ else if _ then _ else _
    rw [readGame_written]
    split_ifs
    · rfl
    · rfl
    · funext name
      rw [time, AList.lookup_insert, Option.bind_some]
  have hother : ∀ (parsed : Games) (e : Σ _ : Int32, Game) g, g ≠ e.1 → time (turn parsed e) g = time parsed g := by
    intro parsed e g hne
    change time (readGame wild parsed _) g = _
    rw [readGame_written]
    split_ifs
    · rfl
    · rfl
    · funext name
      rw [time, AList.lookup_insert_ne hne, time]
  have hread := FoldKeys.look_foldl (fun (parsed : Games) g => time parsed g) turn
    (fun g had game => if g ≤ 0 then had else entry had game) hself hother games.nodupKeys ∅ g
  have hfrom : (fromJson wild (toJson games)).getD ∅ = games.entries.foldl turn ∅ := by
    rw [fromJson, games_toJson]
    exact List.foldl_map
  have hname := congrFun hread name
  rw [hfrom]
  refine hname.trans ?_
  change _ = if g ≤ 0 ∨ name = [] then none else ((games.entries.dlookup g).bind (·.unlocks.lookup name)).map (stored wild)
  cases games.entries.dlookup g with
  | none => split_ifs <;> rfl
  | some game =>
      change (if g ≤ 0 then _ else if _ then _ else _ : Text → Option Int) name = if _ then none else (game.unlocks.lookup name).map _
      have hlook := lookup_storedUnlocks wild game.unlocks name
      by_cases hg : g ≤ 0
      · rw [if_pos hg, if_pos (.inl hg)]
        rfl
      · have hor : (g ≤ 0 ∨ name = []) = (name = []) := by rw [eq_false hg, false_or]
        simp only [hor]
        rw [if_neg hg, ← hlook]
        split_ifs with hempty
        · have hnone : (storedUnlocks wild game.unlocks).lookup name = none := by
            change (storedUnlocks wild game.unlocks).entries.dlookup name = none
            rw [hempty]
            rfl
          rw [hnone]
          rfl
        · rfl

theorem stored_eq {t : Int} (h : t.natAbs ≤ 2 ^ 53) : stored wild t = t := by
  have hdouble : double t = t := by
    unfold double
    dsimp only
    split_ifs with hlt
    · rfl
    · rcases Int.natAbs_eq t with ht | ht
      all_goals
        rw [show t.natAbs = 2 ^ 53 by omega] at ht
        subst ht
        decide +kernel
  rw [stored, hdouble, qint64, if_pos (by omega)]

end Storing

section Runs

variable (format : Format) (wild : Int → Int)

def Observed (steps : List Step) (g : Int32) (name : Text) (t : Int) : Prop :=
  ∃ other, .fold other ∈ steps ∧ time other g name = some t

-- What a file can hold, where there is one.
def Storable (steps : List Step) : Prop :=
  .reload ∈ steps → ∀ g name t, Observed steps g name t → 0 < g ∧ name ≠ [] ∧ t.natAbs ≤ 2 ^ 53

def timesSeen (g : Int32) (name : Text) : Step → List Int
  | .fold other => (time other g name).toList
  | .reload => []

variable {steps : List Step} {g : Int32} {name : Text} {t : Int}

theorem mem_timesSeen : t ∈ steps.flatMap (timesSeen g name) ↔ Observed steps g name t := by
  rw [List.mem_flatMap]
  constructor
  · rintro ⟨s, hs, ht⟩
    cases s with
    | fold other => exact ⟨other, hs, Option.mem_toList.mp ht⟩
    | reload => exact absurd ht List.not_mem_nil
  · rintro ⟨other, hs, ht⟩
    exact ⟨.fold other, hs, Option.mem_toList.mpr ht⟩

theorem Observed.append (h : Observed steps g name t) (s : Step) : Observed (steps ++ [s]) g name t := by
  obtain ⟨other, hs, ht⟩ := h
  exact ⟨other, List.mem_append_left _ hs, ht⟩

theorem Storable.init {s : Step} (h : Storable (steps ++ [s])) : Storable steps :=
  fun hreload g name t ht => h (List.mem_append_left _ hreload) g name t (ht.append s)

theorem run_append (steps : List Step) (s : Step) :
    run format wild (steps ++ [s]) = step format wild (run format wild steps) s := by
  rw [run, List.foldl_append, run]
  rfl

theorem run_holds (hformat : ∀ o, format.object (format.document o) = o) (hstorable : Storable steps) :
    Holds (steps.flatMap (timesSeen g name)) (time (run format wild steps) g name) := by
  induction steps using List.reverseRecOn with
  | nil => exact rfl
  | append_singleton steps s ih =>
      have hheld := ih hstorable.init
      rw [run_append, List.flatMap_append, List.flatMap_singleton]
      cases s with
      | fold other =>
          rw [step, time_fold]
          exact hheld.combine (holds_toList _)
      | reload =>
          rw [step, reload, hformat, time_stored, timesSeen, List.append_nil]
          cases htime : time (run format wild steps) g name with
          | none =>
              rw [htime] at hheld
              split_ifs <;> exact hheld
          | some t =>
              rw [htime] at hheld
              have hseen := (mem_timesSeen.mp hheld.1).append .reload
              obtain ⟨hg, hname, ht⟩ := hstorable (List.mem_append_right _ (List.mem_singleton_self _)) g name t hseen
              have hno : ¬ (g ≤ 0 ∨ name = []) := not_or.mpr ⟨Int32.not_le.mpr hg, hname⟩
              rw [if_neg hno, Option.map_some, stored_eq wild ht]
              exact hheld

-- Nothing that was seen is lost, the time of an unlock is the earliest that is known of it, and what was seen
-- decides the ledger, in whatever order, however often and with whatever restarts.
theorem ledger_merged (hformat : ∀ o, format.object (format.document o) = o) (steps steps' : List Step)
    (hstorable : Storable steps) (hstorable' : Storable steps')
    (hsame : ∀ g name t, Observed steps g name t ↔ Observed steps' g name t) (g : Int32) (name : Text) :
    (time (run format wild steps) g name = none ↔ ∀ t, ¬ Observed steps g name t) ∧
    (∀ t, time (run format wild steps) g name = some t → Observed steps g name t ∧
      ∀ s, Observed steps g name s → 0 < s → 0 < t ∧ t ≤ s) ∧
    (time (run format wild steps) g name).map known = (time (run format wild steps') g name).map known := by
  have hheld : Holds _ (time (run format wild steps) g name) := run_holds format wild hformat hstorable
  have hheld' : Holds _ (time (run format wild steps') g name) := run_holds format wild hformat hstorable'
  have hmem : ∀ t, t ∈ steps.flatMap (timesSeen g name) ↔ t ∈ steps'.flatMap (timesSeen g name) := fun t => by
    rw [mem_timesSeen, mem_timesSeen, hsame]
  cases htime : time (run format wild steps) g name with
  | none =>
      rw [htime] at hheld
      have hnone : steps.flatMap (timesSeen g name) = [] := hheld
      have hunseen : ∀ t, ¬ Observed steps g name t := fun t ht => by
        rw [← mem_timesSeen, hnone] at ht
        exact List.not_mem_nil ht
      refine ⟨iff_of_true rfl hunseen, nofun, ?_⟩
      cases htime' : time (run format wild steps') g name with
      | none => rfl
      | some t' =>
          rw [htime'] at hheld'
          exact absurd (mem_timesSeen.mp ((hmem t').mpr hheld'.1)) (hunseen t')
  | some t =>
      rw [htime] at hheld
      have hseen := mem_timesSeen.mp hheld.1
      refine ⟨iff_of_false nofun fun h => h t hseen, ?_, ?_⟩
      · rintro _ ⟨⟩
        exact ⟨hseen, fun s hs => hheld.2 s (mem_timesSeen.mpr hs)⟩
      · cases htime' : time (run format wild steps') g name with
        | none =>
            rw [htime'] at hheld'
            have hnone : steps'.flatMap (timesSeen g name) = [] := hheld'
            have ht := (hmem t).mp hheld.1
            rw [hnone] at ht
            exact absurd ht List.not_mem_nil
        | some t' =>
            rw [htime'] at hheld'
            rw [Option.map_some, Option.map_some, hheld.known_eq hheld' hmem]

theorem observed_nil : ¬ Observed [] g name t := fun ⟨_, h, _⟩ => List.not_mem_nil h

theorem observed_reload : Observed (.reload :: steps) g name t ↔ Observed steps g name t := by
  simp [Observed]

theorem observed_fold {other : Games} : Observed (.fold other :: steps) g name t ↔
    time other g name = some t ∨ Observed steps g name t := by
  simp [Observed, or_and_right, exists_or]

def plain : Format := ⟨JsonObject, id, id⟩

-- One unlock of one game.
def lone (title name : Text) (t : Int) : Games :=
  (∅ : Games).insert 1 ⟨title, (∅ : Unlocks).insert name t⟩

theorem time_lone {title unlock : Text} {u : Int} (h : time (lone title unlock u) g name = some t) :
    g = 1 ∧ name = unlock ∧ t = u := by
  unfold time lone at h
  by_cases hg : g = 1
  · subst hg
    rw [AList.lookup_insert, Option.bind_some] at h
    by_cases hname : name = unlock
    · subst hname
      rw [AList.lookup_insert, Option.some_inj] at h
      exact ⟨rfl, rfl, h.symm⟩
    · rw [AList.lookup_insert_ne hname] at h
      contradiction
  · rw [AList.lookup_insert_ne hg] at h
    contradiction

theorem ledger_merged_reloaded :
    (time (run plain id [.fold (lone [] ['A'] 200), .reload, .fold (lone [] ['A'] 100)]) 1 ['A']).map known =
      (time (run plain id [.fold (lone [] ['A'] 100), .fold (lone [] ['A'] 200), .reload]) 1 ['A']).map known := by
  have hunlock : ∀ {g name t}, time (lone [] ['A'] 200) g name = some t ∨ time (lone [] ['A'] 100) g name = some t →
      0 < g ∧ name ≠ [] ∧ t.natAbs ≤ 2 ^ 53 := by
    rintro g name t (h | h)
    all_goals
      obtain ⟨rfl, rfl, rfl⟩ := time_lone h
      exact ⟨by decide, by decide, by decide⟩
  have hseen : ∀ {g name t},
      Observed [.fold (lone [] ['A'] 200), .reload, .fold (lone [] ['A'] 100)] g name t ↔
        time (lone [] ['A'] 200) g name = some t ∨ time (lone [] ['A'] 100) g name = some t := by
    intro g name t
    rw [observed_fold, observed_reload, observed_fold, or_iff_left observed_nil]
  have hseen' : ∀ {g name t},
      Observed [.fold (lone [] ['A'] 100), .fold (lone [] ['A'] 200), .reload] g name t ↔
        time (lone [] ['A'] 200) g name = some t ∨ time (lone [] ['A'] 100) g name = some t := by
    intro g name t
    rw [observed_fold, observed_fold, observed_reload, or_iff_left observed_nil, or_comm]
  exact (ledger_merged plain id (fun _ => rfl) _ _ (fun _ _ _ _ h => hunlock (hseen.mp h))
    (fun _ _ _ _ h => hunlock (hseen'.mp h)) (fun _ _ _ => hseen.trans hseen'.symm) 1 ['A']).2.2

-- Two unknown times of one unlock, an unlock without a name, a time that no double holds, and two titles.
theorem ledger_order_shows :
    time (run plain id [.fold (lone [] ['A'] (-5)), .fold (lone [] ['A'] 0)]) 1 ['A'] ≠
      time (run plain id [.fold (lone [] ['A'] 0), .fold (lone [] ['A'] (-5))]) 1 ['A'] ∧
    time (run plain id [.fold (lone [] [] 5), .reload]) 1 [] = none ∧
    time (run plain id [.fold (lone [] ['A'] 9007199254740993), .reload]) 1 ['A'] = some 9007199254740992 ∧
    ((run plain id [.fold (lone ['X'] ['A'] 5), .fold (lone ['Y'] ['A'] 5)]).lookup 1).map Game.title ≠
      ((run plain id [.fold (lone ['Y'] ['A'] 5), .fold (lone ['X'] ['A'] 5)]).lookup 1).map Game.title := by
  decide +kernel

end Runs

end BATorrent.AchievementLedger
