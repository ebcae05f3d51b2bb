import BATorrent.Ipc.FrameRing

namespace BATorrent.FrameRing

open Lib

variable {s s' : State} {slot : Fin kSlots}

section Tokens

-- How often a slot of a ring is under way or held.
def State.tokens (s : State) (generation slot : Int) : Nat :=
  s.toPlayer.count (.frame generation slot) + s.toHost.count (.release generation slot) +
    if s.player.reading = some (generation, slot) then 1 else 0

theorem tokens_pos_iff {generation slot : Int} :
    0 < s.tokens generation slot ↔
      .frame generation slot ∈ s.toPlayer ∨ .release generation slot ∈ s.toHost ∨
        s.player.reading = some (generation, slot) := by
  rw [← List.count_pos_iff (a := Report.frame generation slot),
    ← List.count_pos_iff (a := Command.release generation slot)]
  unfold State.tokens
  split_ifs with h
  · simp [h]
  · simp only [h, or_false]
    omega

theorem frame_ne {generation slot generation' slot' : Int}
    (h : ¬ (generation, slot) = (generation', slot')) :
    Report.frame generation slot ≠ .frame generation' slot' := by
  intro heq
  obtain ⟨hgeneration, hslot⟩ := Report.frame.inj heq
  exact h (by rw [hgeneration, hslot])

theorem release_ne {generation slot generation' slot' : Int}
    (h : ¬ (generation, slot) = (generation', slot')) :
    Command.release generation slot ≠ .release generation' slot' := by
  intro heq
  obtain ⟨hgeneration, hslot⟩ := Command.release.inj heq
  exact h (by rw [hgeneration, hslot])

theorem inUse_iff : s.InUse slot ↔ 0 < s.tokens s.host.generation slot := tokens_pos_iff.symm

end Tokens

section Books

def Command.ringGeneration : Command → Option Int
  | .ring generation _ _ => some generation
  | .release _ _ => none

-- The rings that the child has not heard of yet.
def coming (l : List Command) : List Int := l.filterMap Command.ringGeneration

-- What the two parties and their queues keep to. The generations never come twice, so that a slot
-- of a ring has one frame or release at most.
structure Books (s : State) : Prop where
  tally : ∀ slot : Fin kSlots,
    s.tokens s.host.generation slot = if s.host.busy slot = true then 1 else 0
  aged : ∀ generation slot, 0 < s.tokens generation slot → generation ≤ s.host.generation
  ascending : (s.host.generation :: coming s.toHost).Pairwise (· < ·)
  announced : ∀ generation ∈ s.host.generation :: coming s.toHost, generation ≤ s.player.generation
  names : ∀ generation bytes token, .ring generation bytes token ∈ s.toHost →
    token.generation = generation
  hostRing : ∀ ring ∈ s.host.ring, ring.generation = s.host.generation
  playerRing : ∀ ring ∈ s.player.ring, ring.generation = s.player.generation
  hostSize : s.host.ring.isSome → 0 < s.host.slotBytes ∧
    (s.host.generation = s.player.generation → s.player.ring.isSome →
      s.host.slotBytes = s.player.slotBytes)
  comingSize : ∀ generation bytes token, .ring generation bytes token ∈ s.toHost →
    generation = s.player.generation → s.player.ring.isSome → bytes = s.player.slotBytes
  writing : ∀ slot ∈ s.host.writing, s.host.busy slot = false
  reading : ∀ held ∈ s.player.reading, held.1 = s.player.generation ∧ 0 ≤ held.2

theorem init_books : Books init := by
  constructor <;> simp [init, State.tokens, coming, MediaHost.start]

end Books

section Steps

-- The step changes neither what the child has busy nor what is under way.
theorem Books.host_frame (h : Books s) {host : MediaHost} {reports : List Report}
    (hbusy : host.busy = s.host.busy) (hgeneration : host.generation = s.host.generation)
    (hring : host.ring = s.host.ring) (hslotBytes : host.slotBytes = s.host.slotBytes)
    (hwriting : ∀ slot ∈ host.writing, host.busy slot = false)
    (hreports : ∀ generation slot, .frame generation slot ∉ reports) :
    Books { s with host := host, toPlayer := s.toPlayer ++ reports } := by
  have htokens : ∀ generation slot,
      State.tokens { s with host := host, toPlayer := s.toPlayer ++ reports } generation slot =
        s.tokens generation slot := by
    intro generation slot
    simp [State.tokens, List.count_append, List.count_eq_zero_of_not_mem (hreports generation slot)]
  constructor
  · intro slot
    rw [htokens]
    simp only [hgeneration, hbusy, h.tally slot]
  · intro generation slot hpos
    rw [htokens] at hpos
    simpa only [hgeneration] using h.aged generation slot hpos
  · simpa only [hgeneration] using h.ascending
  · simpa only [hgeneration] using h.announced
  · exact h.names
  · simpa only [hring, hgeneration] using h.hostRing
  · exact h.playerRing
  · simpa only [hring, hslotBytes, hgeneration] using h.hostSize
  · exact h.comingSize
  · exact hwriting
  · exact h.reading

theorem freeSlot_free {h : MediaHost} (hfree : h.freeSlot = some slot) : h.busy slot = false := by
  have hfound := List.find?_some hfree
  simpa using hfound

theorem Books.onFrame (h : Books s) (hidle : s.host.writing = none) (need : Int) :
    Books (s.onFrame need) := by
  unfold State.onFrame MediaHost.onFrame
  split_ifs with hneeds hasked
  · refine h.host_frame rfl rfl rfl rfl ?_ ?_
    · intro slot hslot
      simp [hidle] at hslot
    · simp
  · exact h.host_frame rfl rfl rfl rfl h.writing (by simp)
  · cases hfree : s.host.freeSlot with
    | none => exact h.host_frame rfl rfl rfl rfl h.writing (by simp)
    | some slot =>
        refine h.host_frame rfl rfl rfl rfl ?_ (by simp)
        intro slot' hslot
        obtain rfl := Option.some.inj hslot
        exact freeSlot_free hfree

-- One more frame of the child's ring, of a slot that was free.
theorem tokens_append_frame (s : State) (host : MediaHost) (slot : Fin kSlots)
    (generation slot' : Int) :
    State.tokens { s with host := host, toPlayer := s.toPlayer ++ [.frame s.host.generation slot] }
        generation slot' =
      s.tokens generation slot' + if (generation, slot') = (s.host.generation, (slot : Int)) then 1
        else 0 := by
  by_cases hsame : (generation, slot') = (s.host.generation, (slot : Int))
  · obtain ⟨rfl, rfl⟩ := Prod.mk.inj hsame
    simp [State.tokens, List.count_append]
    omega
  · have hne := frame_ne (Ne.symm hsame)
    simp [State.tokens, List.count_append, hsame, hne]

theorem Books.packed (h : Books s) (hwriting : s.host.writing = some slot) (ok : Bool) :
    Books (s.packed slot ok) := by
  have hfree := h.writing slot hwriting
  cases ok with
  | false =>
      refine h.host_frame rfl rfl rfl rfl ?_ ?_
      · simp [MediaHost.packed]
      · simp [MediaHost.packed]
  | true =>
      unfold State.packed MediaHost.packed
      simp only [if_true]
      constructor
      · intro slot'
        rw [tokens_append_frame]
        have htally := h.tally slot'
        by_cases hsame : slot' = slot
        · subst hsame
          simp only [hfree] at htally
          simp [htally]
        · have hval : ¬ (slot' : Int) = slot := by
            intro heq
            exact hsame (Fin.ext (by exact_mod_cast heq))
          simp [Function.update_of_ne hsame, htally, hval]
      · intro generation slot' hpos
        rw [tokens_append_frame] at hpos
        by_cases hsame : (generation, slot') = (s.host.generation, (slot : Int))
        · exact (Prod.mk.inj hsame).1.le
        · rw [if_neg hsame] at hpos
          exact h.aged generation slot' hpos
      · exact h.ascending
      · exact h.announced
      · exact h.names
      · exact h.hostRing
      · exact h.playerRing
      · exact h.hostSize
      · exact h.comingSize
      · simp
      · exact h.reading

theorem coming_cons_ring (generation bytes : Int) (token : Segment) (rest : List Command) :
    coming (.ring generation bytes token :: rest) = generation :: coming rest := rfl

theorem coming_cons_release (generation slot : Int) (rest : List Command) :
    coming (.release generation slot :: rest) = coming rest := rfl

-- The first command is off the queue.
theorem tokens_tail_ring (s : State) (host : MediaHost) (reports : List Report)
    (generation bytes : Int) (token : Segment) (rest : List Command)
    (hqueue : s.toHost = .ring generation bytes token :: rest)
    (hreports : ∀ generation slot, .frame generation slot ∉ reports) (generation' slot : Int) :
    State.tokens { s with host := host, toPlayer := s.toPlayer ++ reports, toHost := rest }
        generation' slot = s.tokens generation' slot := by
  simp [State.tokens, List.count_append, List.count_eq_zero_of_not_mem (hreports generation' slot),
    hqueue]

-- A ring that could not be mapped leaves the child with the one it has.
theorem Books.ring_unmapped (h : Books s) {generation bytes : Int} {token : Segment}
    {rest : List Command} (hqueue : s.toHost = .ring generation bytes token :: rest) :
    Books { s with toPlayer := s.toPlayer ++ [], toHost := rest } := by
  have htokens := tokens_tail_ring s s.host [] generation bytes token rest hqueue (by simp)
  have hcoming : coming s.toHost = generation :: coming rest := by
    rw [hqueue, coming_cons_ring]
  have hmem : ∀ c ∈ rest, c ∈ s.toHost := by
    intro c hc
    rw [hqueue]
    exact List.mem_cons_of_mem _ hc
  constructor
  · intro slot
    rw [htokens]
    exact h.tally slot
  · intro generation' slot hpos
    rw [htokens] at hpos
    exact h.aged generation' slot hpos
  · have hascending := h.ascending
    rw [hcoming] at hascending
    exact hascending.sublist (List.Sublist.cons_cons _ (List.sublist_cons_self _ _))
  · intro generation' hgeneration
    refine h.announced generation' ?_
    rw [hcoming]
    rcases List.mem_cons.mp hgeneration with rfl | hgeneration
    · exact List.mem_cons_self
    · exact List.mem_cons_of_mem _ (List.mem_cons_of_mem _ hgeneration)
  · exact fun generation' bytes' token' hring => h.names _ _ _ (hmem _ hring)
  · exact h.hostRing
  · exact h.playerRing
  · exact h.hostSize
  · exact fun generation' bytes' token' hring => h.comingSize _ _ _ (hmem _ hring)
  · exact h.writing
  · exact h.reading

-- A new ring is all free: nothing of its generation was under way.
theorem Books.ring_mapped (h : Books s) (hidle : s.host.writing = none) {generation bytes : Int}
    {token : Segment} {rest : List Command}
    (hqueue : s.toHost = .ring generation bytes token :: rest) (hbytes : 0 < bytes) :
    Books
      { s with
        host := { s.host with ring := some token, slotBytes := bytes, generation := generation
                              busy := fun _ => false }
        toPlayer := s.toPlayer ++ [.ringReady generation], toHost := rest } := by
  have htokens := tokens_tail_ring s
    { s.host with ring := some token, slotBytes := bytes, generation := generation
                  busy := fun _ => false }
    [.ringReady generation] generation bytes token rest hqueue (by simp)
  have hcoming : coming s.toHost = generation :: coming rest := by
    rw [hqueue, coming_cons_ring]
  have hascending := h.ascending
  rw [hcoming] at hascending
  obtain ⟨hnew, hascending⟩ := List.pairwise_cons.mp hascending
  have hlt := hnew generation List.mem_cons_self
  have hring : .ring generation bytes token ∈ s.toHost := by
    rw [hqueue]
    exact List.mem_cons_self
  have hmem : ∀ c ∈ rest, c ∈ s.toHost := by
    intro c hc
    rw [hqueue]
    exact List.mem_cons_of_mem _ hc
  constructor
  · intro slot
    rw [htokens]
    have hnone : s.tokens generation slot = 0 := by
      by_contra hsome
      have hle := h.aged generation slot (Nat.pos_of_ne_zero hsome)
      omega
    simpa using hnone
  · intro generation' slot hpos
    rw [htokens] at hpos
    exact (h.aged generation' slot hpos).trans hlt.le
  · exact hascending
  · intro generation' hgeneration
    refine h.announced generation' ?_
    rw [hcoming]
    exact List.mem_cons_of_mem _ hgeneration
  · exact fun generation' bytes' token' hring' => h.names _ _ _ (hmem _ hring')
  · rintro ring hsome
    obtain rfl := Option.some.inj hsome
    exact h.names _ _ _ hring
  · exact h.playerRing
  · exact fun _ => ⟨hbytes, fun hsame hplayer => h.comingSize _ _ _ hring hsame hplayer⟩
  · exact fun generation' bytes' token' hring' => h.comingSize _ _ _ (hmem _ hring')
  · simp [hidle]
  · exact h.reading

theorem Books.attachRing (h : Books s) (hidle : s.host.writing = none) {generation bytes : Int}
    {token : Segment} {rest : List Command}
    (hqueue : s.toHost = .ring generation bytes token :: rest) (mapped : Option Int) :
    Books (s.dispatch mapped (.ring generation bytes token) rest) := by
  unfold State.dispatch MediaHost.dispatch MediaHost.attachRing
  cases mapped with
  | none => exact h.ring_unmapped hqueue
  | some size =>
      dsimp only
      split_ifs with hsmall
      · exact h.ring_unmapped hqueue
      · exact h.ring_mapped hidle hqueue (by omega)

theorem tokens_tail_release {generation slot : Int} {rest : List Command}
    (hqueue : s.toHost = .release generation slot :: rest) (host : MediaHost)
    (generation' slot' : Int) :
    State.tokens { s with host := host, toPlayer := s.toPlayer ++ [], toHost := rest } generation'
        slot' + (if (generation, slot) = (generation', slot') then 1 else 0) =
      s.tokens generation' slot' := by
  by_cases hsame : (generation, slot) = (generation', slot')
  · obtain ⟨rfl, rfl⟩ := Prod.mk.inj hsame
    simp [State.tokens, hqueue]
    omega
  · simp [State.tokens, hqueue, hsame, release_ne hsame]

-- The release frees the slot, or names another ring.
theorem release_busy (h : MediaHost) (generation slot' : Int) (slot : Fin kSlots) :
    (h.release generation slot').busy slot =
      if (generation, slot') = (h.generation, (slot : Int)) then false else h.busy slot := by
  unfold MediaHost.release
  by_cases hsame : (generation, slot') = (h.generation, (slot : Int))
  · obtain ⟨rfl, rfl⟩ := Prod.mk.inj hsame
    rw [dif_pos ⟨rfl, by omega, by exact_mod_cast slot.isLt⟩, if_pos rfl]
    simp
  · rw [if_neg hsame]
    split_ifs with hslot
    · obtain ⟨rfl, hnonneg, hlt⟩ := hslot
      have hindex : slot ≠ ⟨slot'.toNat, by omega⟩ := by
        rintro rfl
        exact hsame (by simp [Int.toNat_of_nonneg hnonneg])
      simp [Function.update_of_ne hindex]
    · rfl

theorem release_frame (h : MediaHost) (generation slot : Int) :
    (h.release generation slot).generation = h.generation ∧
      (h.release generation slot).ring = h.ring ∧
      (h.release generation slot).slotBytes = h.slotBytes ∧
      (h.release generation slot).writing = h.writing := by
  unfold MediaHost.release
  split_ifs <;> exact ⟨rfl, rfl, rfl, rfl⟩

theorem Books.release (h : Books s) (hidle : s.host.writing = none) {generation slot : Int}
    {rest : List Command} (hqueue : s.toHost = .release generation slot :: rest)
    (mapped : Option Int) : Books (s.dispatch mapped (.release generation slot) rest) := by
  obtain ⟨hgeneration, hring, hslotBytes, hwriting⟩ := release_frame s.host generation slot
  have htokens := tokens_tail_release hqueue (s.host.release generation slot)
  have hcoming : coming s.toHost = coming rest := by
    rw [hqueue, coming_cons_release]
  have hmem : ∀ c ∈ rest, c ∈ s.toHost := by
    intro c hc
    rw [hqueue]
    exact List.mem_cons_of_mem _ hc
  unfold State.dispatch MediaHost.dispatch
  dsimp only
  constructor
  · intro slot'
    have htally := h.tally slot'
    have htoken := htokens s.host.generation slot'
    simp only [hgeneration, release_busy]
    by_cases hsame : (generation, slot) = (s.host.generation, (slot' : Int))
    · rw [if_pos hsame] at htoken ⊢
      simp only [Bool.false_eq_true, if_false]
      split_ifs at htally <;> omega
    · rw [if_neg hsame] at htoken ⊢
      rw [← htally, ← htoken, Nat.add_zero]
  · intro generation' slot' hpos
    have htoken := htokens generation' slot'
    simp only [hgeneration]
    exact h.aged generation' slot' (by omega)
  · simpa only [hgeneration, ← hcoming] using h.ascending
  · simpa only [hgeneration, ← hcoming] using h.announced
  · exact fun generation' bytes token hin => h.names _ _ _ (hmem _ hin)
  · simpa only [hring, hgeneration] using h.hostRing
  · exact h.playerRing
  · simpa only [hring, hslotBytes, hgeneration] using h.hostSize
  · exact fun generation' bytes token hin => h.comingSize _ _ _ (hmem _ hin)
  · intro slot' hslot
    rw [hwriting, hidle] at hslot
    cases hslot
  · exact h.reading

theorem Books.dispatch (h : Books s) (hidle : s.host.writing = none) {c : Command}
    {rest : List Command} (hqueue : s.toHost = c :: rest) (mapped : Option Int) :
    Books (s.dispatch mapped c rest) := by
  cases c with
  | ring generation bytes token => exact h.attachRing hidle hqueue mapped
  | release generation slot => exact h.release hidle hqueue mapped

-- The window moves a slot on, or takes a report that is no frame: its ring stays.
theorem Books.moved (h : Books s) {player : IsolatedMediaPlayer} {reports : List Report}
    {commands : List Command} (hring : player.ring = s.player.ring)
    (hgeneration : player.generation = s.player.generation)
    (hslotBytes : player.slotBytes = s.player.slotBytes)
    (htokens : ∀ generation slot,
      State.tokens { s with player := player, toPlayer := reports, toHost := commands } generation
        slot = s.tokens generation slot)
    (hcoming : coming commands = coming s.toHost)
    (hcommands : ∀ generation bytes token, .ring generation bytes token ∈ commands →
      .ring generation bytes token ∈ s.toHost)
    (hreading : ∀ held ∈ player.reading, held.1 = s.player.generation ∧ 0 ≤ held.2) :
    Books { s with player := player, toPlayer := reports, toHost := commands } := by
  constructor
  · intro slot
    rw [htokens]
    exact h.tally slot
  · intro generation slot hpos
    rw [htokens] at hpos
    exact h.aged generation slot hpos
  · simpa only [hcoming] using h.ascending
  · simpa only [hcoming, hgeneration] using h.announced
  · exact fun generation bytes token hin => h.names _ _ _ (hcommands _ _ _ hin)
  · exact h.hostRing
  · simpa only [hring, hgeneration] using h.playerRing
  · simpa only [hring, hgeneration, hslotBytes] using h.hostSize
  · intro generation bytes token hin
    simpa only [hring, hgeneration, hslotBytes] using h.comingSize _ _ _ (hcommands _ _ _ hin)
  · exact h.writing
  · simpa only [hgeneration] using hreading

theorem Books.playerSkips (h : Books s) {r : Report} {rest : List Report}
    (hqueue : s.toPlayer = r :: rest) (hframe : ∀ generation slot, r ≠ .frame generation slot) :
    Books { s with player := s.player, toPlayer := rest, toHost := s.toHost ++ [] } := by
  rw [List.append_nil]
  refine h.moved rfl rfl rfl ?_ rfl (fun _ _ _ hin => hin) h.reading
  intro generation slot
  simp [State.tokens, hqueue, hframe generation slot]

theorem coming_append (l l' : List Command) : coming (l ++ l') = coming l ++ coming l' :=
  List.filterMap_append

-- A larger ring takes the place of the window's. The child goes on with its own for a while.
theorem Books.ringShared (h : Books s) (hidle : s.player.reading = none) {r : Report}
    {rest : List Report} (hqueue : s.toPlayer = r :: rest)
    (hframe : ∀ generation slot, r ≠ .frame generation slot) (size : Int) :
    Books
      { s with
        player := { s.player with ring := some ⟨s.player.generation + 1⟩, slotBytes := size
                                  generation := s.player.generation + 1 }
        toPlayer := rest
        toHost := s.toHost ++
          [.ring (s.player.generation + 1) size ⟨s.player.generation + 1⟩] } := by
  have htokens : ∀ generation slot,
      State.tokens
        { s with
          player := { s.player with ring := some ⟨s.player.generation + 1⟩, slotBytes := size
                                    generation := s.player.generation + 1 }
          toPlayer := rest
          toHost := s.toHost ++
            [.ring (s.player.generation + 1) size ⟨s.player.generation + 1⟩] } generation slot =
        s.tokens generation slot := by
    intro generation slot
    simp [State.tokens, hqueue, hframe generation slot, List.count_append]
  have hannounced := h.announced
  have hring : ∀ {c}, c ∈ s.toHost ++
      [.ring (s.player.generation + 1) size ⟨s.player.generation + 1⟩] →
      c ∈ s.toHost ∨ c = .ring (s.player.generation + 1) size ⟨s.player.generation + 1⟩ := by
    intro c hc
    simpa using hc
  constructor
  · intro slot
    rw [htokens]
    exact h.tally slot
  · intro generation slot hpos
    rw [htokens] at hpos
    exact h.aged generation slot hpos
  · rw [coming_append, ← List.cons_append, List.pairwise_append]
    refine ⟨h.ascending, List.pairwise_singleton _ _, ?_⟩
    intro generation hgeneration generation' hnew
    obtain rfl := List.mem_singleton.mp hnew
    have hle := hannounced generation hgeneration
    show generation < s.player.generation + 1
    omega
  · intro generation hgeneration
    show generation ≤ s.player.generation + 1
    rw [coming_append, ← List.cons_append, List.mem_append] at hgeneration
    rcases hgeneration with hold | hnew
    · have hle := hannounced generation hold
      omega
    · obtain rfl := List.mem_singleton.mp hnew
      exact le_rfl
  · intro generation bytes token hin
    rcases hring hin with hold | hnew
    · exact h.names generation bytes token hold
    · obtain ⟨rfl, rfl, rfl⟩ := Command.ring.inj hnew
      rfl
  · exact h.hostRing
  · rintro ring hsome
    obtain rfl := Option.some.inj hsome
    rfl
  · intro hsome
    refine ⟨(h.hostSize hsome).1, ?_⟩
    intro hsame
    have hle := hannounced s.host.generation List.mem_cons_self
    have hsame' : s.host.generation = s.player.generation + 1 := hsame
    omega
  · intro generation bytes token hin hsame
    rcases hring hin with hold | hnew
    · have hcoming : generation ∈ s.host.generation :: coming s.toHost :=
        List.mem_cons_of_mem _ (List.mem_filterMap.mpr ⟨_, hold, rfl⟩)
      have hle := hannounced generation hcoming
      have hsame' : generation = s.player.generation + 1 := hsame
      omega
    · obtain ⟨rfl, rfl, rfl⟩ := Command.ring.inj hnew
      exact fun _ => rfl
  · exact h.writing
  · simp [hidle]

theorem Books.shareRing (h : Books s) (hidle : s.player.reading = none) {bytes : Int}
    {rest : List Report} (hqueue : s.toPlayer = .needRing bytes :: rest) (shared : Bool) :
    Books (s.onEvent shared (.needRing bytes) rest) := by
  have hskips := h.playerSkips hqueue (by simp)
  unfold State.onEvent IsolatedMediaPlayer.onEvent IsolatedMediaPlayer.shareRing
  dsimp only
  split_ifs with hrefused hshared
  · exact hskips
  · exact h.ringShared hidle hqueue (by simp) _
  · exact hskips

theorem coming_append_release (l : List Command) (generation slot : Int) :
    coming (l ++ [.release generation slot]) = coming l := by
  rw [coming_append, coming_cons_release]
  exact List.append_nil _

theorem ring_mem_append_release {l : List Command} {generation slot : Int}
    (generation' bytes : Int) (token : Segment)
    (h : .ring generation' bytes token ∈ l ++ [.release generation slot]) :
    .ring generation' bytes token ∈ l := by
  simpa using h

-- The frame leaves the queue, and is held.
theorem Books.frameHeld (h : Books s) (hidle : s.player.reading = none) {generation slot : Int}
    {rest : List Report} (hqueue : s.toPlayer = .frame generation slot :: rest)
    (husable : s.player.usable generation slot) :
    Books
      { s with player := { s.player with reading := some (generation, slot) }, toPlayer := rest
               toHost := s.toHost ++ [] } := by
  simp only [IsolatedMediaPlayer.usable, Bool.and_eq_true, decide_eq_true_eq] at husable
  obtain ⟨⟨⟨-, hgeneration⟩, hnonneg⟩, -⟩ := husable
  rw [List.append_nil]
  refine h.moved rfl rfl rfl ?_ rfl (fun _ _ _ hin => hin) ?_
  · intro generation' slot'
    by_cases hsame : (generation, slot) = (generation', slot')
    · obtain ⟨rfl, rfl⟩ := Prod.mk.inj hsame
      simp [State.tokens, hqueue, hidle]
      omega
    · have hne := frame_ne hsame
      simp only [Prod.mk.injEq] at hsame
      simp [State.tokens, hqueue, hidle, hne, hsame]
  · rintro held hheld
    obtain rfl := Option.some.inj hheld
    exact ⟨hgeneration, hnonneg⟩

-- The frame leaves the queue, and goes back unread.
theorem Books.frameRefused (h : Books s) {generation slot : Int} {rest : List Report}
    (hqueue : s.toPlayer = .frame generation slot :: rest) :
    Books
      { s with player := s.player, toPlayer := rest
               toHost := s.toHost ++ [.release generation slot] } := by
  refine h.moved rfl rfl rfl ?_ (coming_append_release _ _ _) ring_mem_append_release h.reading
  intro generation' slot'
  by_cases hsame : (generation, slot) = (generation', slot')
  · obtain ⟨rfl, rfl⟩ := Prod.mk.inj hsame
    simp [State.tokens, hqueue, List.count_append]
    omega
  · simp [State.tokens, hqueue, List.count_append, frame_ne hsame, release_ne hsame]

theorem Books.shown (h : Books s) {generation slot : Int}
    (hheld : s.player.reading = some (generation, slot)) : Books (s.shown generation slot) := by
  refine h.moved rfl rfl rfl ?_ (coming_append_release _ _ _) ring_mem_append_release (by simp)
  intro generation' slot'
  by_cases hsame : (generation, slot) = (generation', slot')
  · obtain ⟨rfl, rfl⟩ := Prod.mk.inj hsame
    simp [State.tokens, hheld, List.count_append]
    omega
  · have hne := release_ne hsame
    simp only [Prod.mk.injEq] at hsame
    simp [State.tokens, hheld, List.count_append, hne, hsame]

theorem Books.onEvent (h : Books s) (hidle : s.player.reading = none) {r : Report}
    {rest : List Report} (hqueue : s.toPlayer = r :: rest) (shared : Bool) :
    Books (s.onEvent shared r rest) := by
  cases r with
  | needRing bytes => exact h.shareRing hidle hqueue shared
  | ringReady generation => exact h.playerSkips hqueue (by simp)
  | frame generation slot =>
      unfold State.onEvent IsolatedMediaPlayer.onEvent IsolatedMediaPlayer.showFrame
      dsimp only
      split_ifs with husable
      · exact h.frameHeld hidle hqueue husable
      · exact h.frameRefused hqueue

-- The next child has no ring, and the window's generations are ahead of it.
theorem Books.childLost (hnonneg : 0 ≤ s.player.generation) (hidle : s.player.reading = none) :
    Books s.childLost := by
  constructor <;>
    simp [State.childLost, State.tokens, coming, MediaHost.start, IsolatedMediaPlayer.teardown,
      hidle, hnonneg]

theorem Books.act (h : Books s) (hnonneg : 0 ≤ s.player.generation) {e : Event}
    (hact : s.act e = some s') : Books s' := by
  cases e with
  | frameDecoded need =>
      dsimp only [State.act] at hact
      split_ifs at hact with hidle
      obtain rfl := Option.some.inj hact
      exact h.onFrame (Option.isNone_iff_eq_none.mp hidle) need
  | framePacked ok =>
      obtain ⟨slot, hwriting, rfl⟩ := Option.map_eq_some_iff.mp hact
      exact h.packed hwriting ok
  | hostReads mapped =>
      dsimp only [State.act] at hact
      split at hact
      · rename_i c rest hidle hqueue
        obtain rfl := Option.some.inj hact
        exact h.dispatch hidle hqueue mapped
      · cases hact
  | playerReads shared =>
      dsimp only [State.act] at hact
      split at hact
      · rename_i r rest hidle hqueue
        obtain rfl := Option.some.inj hact
        exact h.onEvent hidle hqueue shared
      · cases hact
  | frameShown =>
      obtain ⟨held, hheld, rfl⟩ := Option.map_eq_some_iff.mp hact
      exact h.shown hheld
  | childLost =>
      dsimp only [State.act] at hact
      split_ifs at hact with hidle
      obtain rfl := Option.some.inj hact
      exact .childLost hnonneg (Option.isNone_iff_eq_none.mp hidle)

theorem onEvent_generation (p : IsolatedMediaPlayer) (shared : Bool) (r : Report) :
    p.generation ≤ (p.onEvent shared r).1.generation := by
  cases r with
  | needRing bytes =>
      unfold IsolatedMediaPlayer.onEvent IsolatedMediaPlayer.shareRing
      dsimp only
      split_ifs
      · exact le_rfl
      · show p.generation ≤ p.generation + 1
        omega
      · exact le_rfl
  | ringReady generation => exact le_rfl
  | frame generation slot =>
      unfold IsolatedMediaPlayer.onEvent IsolatedMediaPlayer.showFrame
      dsimp only
      split_ifs <;> exact le_rfl

theorem act_generation {e : Event} (hact : s.act e = some s') :
    s.player.generation ≤ s'.player.generation := by
  cases e with
  | frameDecoded need =>
      dsimp only [State.act] at hact
      split_ifs at hact
      obtain rfl := Option.some.inj hact
      exact le_rfl
  | framePacked ok =>
      obtain ⟨slot, -, rfl⟩ := Option.map_eq_some_iff.mp hact
      exact le_rfl
  | hostReads mapped =>
      dsimp only [State.act] at hact
      split at hact
      · obtain rfl := Option.some.inj hact
        exact le_rfl
      · cases hact
  | playerReads shared =>
      dsimp only [State.act] at hact
      split at hact
      · obtain rfl := Option.some.inj hact
        exact onEvent_generation _ _ _
      · cases hact
  | frameShown =>
      obtain ⟨held, -, rfl⟩ := Option.map_eq_some_iff.mp hact
      exact le_rfl
  | childLost =>
      dsimp only [State.act] at hact
      split_ifs at hact
      obtain rfl := Option.some.inj hact
      exact le_rfl

end Steps

section Safe

-- Two slots of one ring do not overlap.
theorem apart_of_ne {segment : Segment} {a b size : Int} (hsize : 0 < size) (hne : a ≠ b) :
    Apart ⟨segment, a * size, size⟩ ⟨segment, b * size, size⟩ := by
  rcases Int.lt_or_gt_of_ne hne with hlt | hlt
  · have hmul := Int.mul_le_mul_of_nonneg_right (show a + 1 ≤ b from hlt) hsize.le
    refine .inr (.inl ?_)
    show a * size + size ≤ b * size
    rw [Int.add_mul] at hmul
    omega
  · have hmul := Int.mul_le_mul_of_nonneg_right (show b + 1 ≤ a from hlt) hsize.le
    refine .inr (.inr ?_)
    show b * size + size ≤ a * size
    rw [Int.add_mul] at hmul
    omega

theorem Books.busy_iff (h : Books s) (slot : Fin kSlots) :
    s.host.busy slot = true ↔ s.InUse slot := by
  rw [inUse_iff, h.tally slot]
  split_ifs with hbusy <;> simp [hbusy]

theorem Books.fresh (h : Books s) {slot : Fin kSlots} (hslot : slot ∈ s.host.writing) :
    ¬ s.InUse slot := by
  rw [← h.busy_iff, h.writing slot hslot]
  exact Bool.false_ne_true

theorem Books.apart (h : Books s) {r w : Region} (hr : r ∈ s.player.reads)
    (hw : w ∈ s.host.writes) : Apart r w := by
  obtain ⟨ring, hring, hr⟩ := Option.bind_eq_some_iff.mp hr
  obtain ⟨held, hheld, rfl⟩ := Option.map_eq_some_iff.mp hr
  obtain ⟨ring', hring', hw⟩ := Option.bind_eq_some_iff.mp hw
  obtain ⟨slot, hslot, rfl⟩ := Option.map_eq_some_iff.mp hw
  by_cases hsegment : ring = ring'
  · subst hsegment
    have hgeneration : s.host.generation = s.player.generation :=
      (h.hostRing ring hring').symm.trans (h.playerRing ring hring)
    obtain ⟨hpos, hsize⟩ := h.hostSize (Option.isSome_iff_exists.mpr ⟨ring, hring'⟩)
    rw [hsize hgeneration (Option.isSome_iff_exists.mpr ⟨ring, hring⟩)] at hpos ⊢
    refine apart_of_ne hpos ?_
    intro hsame
    have hown : held = (s.host.generation, (slot : Int)) := by
      rw [← hsame, hgeneration, ← (h.reading held hheld).1]
    exact h.fresh hslot (.inr (.inr (hown ▸ hheld)))
  · exact .inl hsegment

theorem Books.safe (h : Books s) : Safe s where
  apart _ hr _ hw := h.apart hr hw
  fresh _ hslot := h.fresh hslot
  busy_iff := h.busy_iff

end Safe

section Run

theorem run_books {past : List (Reaction State Event Unit)}
    (hrun : machine.Run (fun _ _ => True) past s) : Books s ∧ 0 ≤ s.player.generation := by
  refine Machine.Run.invariant (fun s => Books s ∧ 0 ≤ s.player.generation)
    ⟨init_books, le_rfl⟩ ?_ hrun
  rintro s e s' out ⟨hbooks, hnonneg⟩ - hnext
  obtain ⟨s'', hact, hs⟩ := Option.map_eq_some_iff.mp hnext
  obtain ⟨rfl, -⟩ := Prod.mk.inj hs
  exact ⟨hbooks.act hnonneg hact, hnonneg.trans (act_generation hact)⟩

theorem run_safe {past : List (Reaction State Event Unit)}
    (hrun : machine.Run (fun _ _ => True) past s) : Safe s := (run_books hrun).1.safe

-- The window copies out of one slot while the child packs into the next.
def BothBusy (s : State) : Prop :=
  s.player.reading = some (1, 0) ∧ s.host.writing.map Fin.val = some 1

instance : DecidablePred BothBusy := fun s => by
  unfold BothBusy
  infer_instance

theorem run_safe_bothBusy : ∃ past s, machine.Run (fun _ _ => True) past s ∧ BothBusy s ∧ Safe s := by
  have hreached : ∃ past s, machine.Run (fun _ _ => True) past s ∧ BothBusy s :=
    Machine.exists_run
      [.frameDecoded 100, .playerReads true, .hostReads (some 375), .frameDecoded 100,
        .framePacked true, .playerReads true, .playerReads true, .frameDecoded 100]
      (by decide +kernel)
  obtain ⟨past, s, hrun, hbusy⟩ := hreached
  exact ⟨past, s, hrun, hbusy, run_safe hrun⟩

end Run

end BATorrent.FrameRing
