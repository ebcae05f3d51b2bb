import BATorrent.Ipc.EngineWire.RoundTrip

namespace BATorrent.EngineWire

open Lib.DataStream

variable (qt : Qt)

section Total

variable {α β : Type}

-- It gives a value on any bytes.
def Total (get : Decoder α) : Prop := ∀ bs, ∃ a rest, get.run bs = some (a, rest)

theorem total_pure (a : α) : Total (pure a : Decoder α) := fun bs => ⟨a, bs, rfl⟩

theorem total_bind {get : Decoder α} {f : α → Decoder β} (h : Total get)
    (h' : ∀ a, Total (f a)) : Total (get >>= f) := by
  intro bs
  obtain ⟨a, rest, hget⟩ := h bs
  obtain ⟨b, rest', hthen⟩ := h' a rest
  refine ⟨b, rest', ?_⟩
  rw [StateT.run_bind, hget]
  exact hthen

theorem total_last {get : Decoder α} (f : α → β) (h : Total get) :
    Total (get >>= fun a => pure (f a)) := total_bind h fun _ => total_pure _

theorem total_lenient (get : Reader α) (default : α) : Total (lenient get default) :=
  fun _ => ⟨_, _, rfl⟩

theorem total_read (c : Codec α) : Total c.read := fun _ => ⟨_, _, rfl⟩

theorem total_getI32 : Total getI32 := total_lenient _ _

theorem total_getI64 : Total getI64 := total_lenient _ _

theorem total_getBool : Total getBool := total_lenient _ _

theorem total_getFlag : Total getFlag := by
  intro bs
  obtain ⟨n, rest, hget⟩ := total_lenient ((getBE 1 0).map UInt8.ofNat) 0 bs
  refine ⟨n ≠ 0, rest, ?_⟩
  rw [getFlag, StateT.run_map, getU8, hget]
  rfl

theorem total_fileInfo : Total (getFileInfo qt) := by
  refine total_bind (total_read _) fun _ => total_bind total_getI64 fun _ => ?_
  exact total_bind (total_read _) fun _ => total_last _ total_getI32

theorem total_peerInfo : Total (getPeerInfo qt) := by
  refine total_bind (total_read _) fun _ => total_bind total_getI32 fun _ => ?_
  refine total_bind total_getI32 fun _ => total_bind total_getI32 fun _ => ?_
  exact total_bind (total_read _) fun _ => total_last _ (total_read _)

theorem total_trackerInfo : Total (getTrackerInfo qt) := by
  refine total_bind (total_read _) fun _ => total_bind total_getI32 fun _ => ?_
  exact total_last _ (total_read _)

theorem total_torrentInfo : Total (getTorrentInfo qt) := by
  refine total_bind (total_read _) fun _ => total_bind (total_read _) fun _ => ?_
  refine total_bind total_getI64 fun _ => total_bind total_getI64 fun _ => ?_
  refine total_bind (total_read _) fun _ => total_bind total_getI32 fun _ => ?_
  refine total_bind total_getI32 fun _ => total_bind total_getI32 fun _ => ?_
  refine total_bind total_getI32 fun _ => total_bind (total_read _) fun _ => ?_
  refine total_bind (total_read _) fun _ => total_bind total_getBool fun _ => ?_
  refine total_bind total_getBool fun _ => total_bind (total_read _) fun _ => ?_
  refine total_bind (total_read _) fun _ => total_bind total_getI64 fun _ => ?_
  refine total_bind total_getI64 fun _ => total_bind (total_read _) fun _ => ?_
  refine total_bind (total_read _) fun _ => total_bind total_getBool fun _ => ?_
  refine total_bind total_getI32 fun _ => total_bind total_getBool fun _ => ?_
  refine total_bind total_getBool fun _ => total_bind total_getBool fun _ => ?_
  refine total_bind total_getBool fun _ => total_bind total_getI64 fun _ => ?_
  refine total_bind total_getBool fun _ => total_bind (total_read _) fun _ => ?_
  exact total_bind total_getBool fun _ => total_last _ total_getI64

theorem total_detailedStats : Total getDetailedStats := by
  refine total_bind total_getI32 fun _ => total_bind total_getI32 fun _ => ?_
  refine total_bind total_getI64 fun _ => total_bind total_getI32 fun _ => ?_
  exact total_bind total_getI32 fun _ => total_last _ total_getBool

end Total

section Sizes

theorem least_i32 : Least putI32 4 := ⟨fun n => (length_putI32 n).ge, 0, length_putI32 0⟩

theorem least_flag : Least putFlag 1 := ⟨fun _ => le_rfl, false, rfl⟩

def leastFileInfo : Nat := qt.string.least + 8 + qt.float.least + 4

theorem least_fileInfo : Least (putFileInfo qt) (leastFileInfo qt) := by
  constructor
  · intro f
    have hpath := qt.string.least_le f.path
    have hprogress := qt.float.least_le f.progress
    simp only [putFileInfo, leastFileInfo, List.length_append, length_putI64, length_putI32]
    omega
  · refine ⟨⟨qt.string.smallest, 0, qt.float.smallest, 0⟩, ?_⟩
    simp only [putFileInfo, leastFileInfo, List.length_append, length_putI64, length_putI32,
      qt.string.length_smallest, qt.float.length_smallest]

def leastPeerInfo : Nat := qt.string.least * 2 + 12 + qt.float.least

theorem least_peerInfo : Least (putPeerInfo qt) (leastPeerInfo qt) := by
  constructor
  · intro p
    have hip := qt.string.least_le p.ip
    have hclient := qt.string.least_le p.client
    have hprogress := qt.float.least_le p.progress
    simp only [putPeerInfo, leastPeerInfo, List.length_append, length_putI32]
    omega
  · refine ⟨⟨qt.string.smallest, 0, 0, 0, qt.float.smallest, qt.string.smallest⟩, ?_⟩
    simp only [putPeerInfo, leastPeerInfo, List.length_append, length_putI32,
      qt.string.length_smallest, qt.float.length_smallest]
    omega

def leastTrackerInfo : Nat := qt.string.least * 2 + 4

theorem least_trackerInfo : Least (putTrackerInfo qt) (leastTrackerInfo qt) := by
  constructor
  · intro t
    have hurl := qt.string.least_le t.url
    have hstatus := qt.string.least_le t.status
    simp only [putTrackerInfo, leastTrackerInfo, List.length_append, length_putI32]
    omega
  · refine ⟨⟨qt.string.smallest, 0, qt.string.smallest⟩, ?_⟩
    simp only [putTrackerInfo, leastTrackerInfo, List.length_append, length_putI32,
      qt.string.length_smallest]
    omega

-- Six texts, one list of texts, three floats, six wide and five narrow numbers, nine flags.
def leastTorrentInfo : Nat :=
  qt.string.least * 6 + qt.strings.least + qt.float.least * 3 + 8 * 6 + 4 * 5 + 9

theorem length_putTorrentInfo (t : TorrentInfo qt) :
    (putTorrentInfo qt t).length =
      (qt.string.put t.name).length + (qt.string.put t.savePath).length +
        (qt.string.put t.stateString).length + (qt.string.put t.stateDetail).length +
        (qt.string.put t.category).length + (qt.string.put t.stateDetailShort).length +
        (qt.strings.put t.tags).length + (qt.float.put t.progress).length +
        (qt.float.put t.ratio).length + (qt.float.put t.availability).length + 77 := by
  delta putTorrentInfo
  simp only [List.length_append, length_putI64, length_putI32, length_putBool]
  omega

def smallestTorrentInfo : TorrentInfo qt where
  name := qt.string.smallest
  savePath := qt.string.smallest
  totalSize := 0
  totalDone := 0
  progress := qt.float.smallest
  downloadRate := 0
  uploadRate := 0
  numPeers := 0
  numSeeds := 0
  stateString := qt.string.smallest
  stateDetail := qt.string.smallest
  stateDetailShort := qt.string.smallest
  paused := false
  completed := false
  finished := false
  seeding := false
  filesMissing := false
  hasError := false
  diskFull := false
  fetchingMetadata := false
  fetchingSecs := -1
  queued := false
  queuePos := 0
  ratio := qt.float.smallest
  availability := qt.float.smallest
  totalUploaded := 0
  addedTime := 0
  completedTime := 0
  category := qt.string.smallest
  tags := qt.strings.smallest

theorem least_torrentInfo : Least (putTorrentInfo qt) (leastTorrentInfo qt) := by
  constructor
  · intro t
    have hname := qt.string.least_le t.name
    have hsavePath := qt.string.least_le t.savePath
    have hstate := qt.string.least_le t.stateString
    have hdetail := qt.string.least_le t.stateDetail
    have hshort := qt.string.least_le t.stateDetailShort
    have hcategory := qt.string.least_le t.category
    have htags := qt.strings.least_le t.tags
    have hprogress := qt.float.least_le t.progress
    have hratio := qt.float.least_le t.ratio
    have havailability := qt.float.least_le t.availability
    rw [length_putTorrentInfo, leastTorrentInfo]
    omega
  · refine ⟨smallestTorrentInfo qt, ?_⟩
    simp only [length_putTorrentInfo, leastTorrentInfo, smallestTorrentInfo,
      qt.string.length_smallest, qt.strings.length_smallest, qt.float.length_smallest]
    omega

end Sizes

section Counts

variable {α β : Type}

-- The count that a decoder finds, and what is left behind it.
def countAt (bs : Bytes) : Int32 × Bytes :=
  (((getBE 4 0).map fun n => (UInt32.ofNat n).toInt32) bs).getD (0, [])

theorem run_getI32 (bs : Bytes) : getI32.run bs = some (countAt bs) := rfl

-- It makes room for no more elements than the bytes behind the count could encode, appends no
-- more, and takes a negative count for none.
def Bounded (get : Decoder (Reserved β)) (items : β → List α) (put : α → Bytes)
    (count : Int32 × Bytes) (bs : Bytes) : Prop :=
  ∃ out, (get.run bs).map Prod.fst = some out ∧ FitsIn put out.reserved count.2.length ∧
    FitsIn put (items out.value).length count.2.length ∧ (count.1 < 0 → items out.value = [])

-- The count is one that the bytes behind it bear out.
def Holds (least : Nat) (count : Int32 × Bytes) : Prop :=
  rounds count.1 * least ≤ count.2.length

instance (least : Nat) (count : Int32 × Bytes) : Decidable (Holds least count) :=
  inferInstanceAs (Decidable (_ ≤ _))

theorem rounds_of_neg {n : Int32} (h : n < 0) : rounds n = 0 := by
  rw [Int32.lt_iff_toInt_lt] at h
  have hneg : n.toInt < 0 := h
  rw [rounds, Int.toNat_of_nonpos hneg.le]

variable {get : Decoder (Reserved β)} {items : β → List α} {put : α → Bytes} {least : Nat}
  {count : Int32 × Bytes} {bs : Bytes} {out : Reserved β}

theorem bounded_iff_of_run (hleast : Least put least)
    (hrun : (get.run bs).map Prod.fst = some out) (hreserved : out.reserved = rounds count.1)
    (hitems : (items out.value).length = rounds count.1) :
    Bounded get items put count bs ↔ Holds least count := by
  unfold Bounded Holds
  rw [hrun]
  constructor
  · rintro ⟨out', hout, hroom, -, -⟩
    obtain rfl := Option.some.inj hout
    rwa [hreserved, hleast.fitsIn_iff] at hroom
  · intro hholds
    refine ⟨out, rfl, ?_, ?_, ?_⟩
    · rwa [hreserved, hleast.fitsIn_iff]
    · rwa [hitems, hleast.fitsIn_iff]
    · intro hneg
      exact List.eq_nil_of_length_eq_zero (hitems.trans (rounds_of_neg hneg))

theorem not_bounded_of_throw (hrun : get.run bs = none) : ¬ Bounded get items put count bs := by
  rintro ⟨out, hout, -, -, -⟩
  rw [hrun] at hout
  cases hout

theorem reserveVector_neg {n : Int32} (h : n < 0) (bs : Bytes) :
    (reserveVector n).run bs = none := by
  rw [reserveVector, if_pos h]
  rfl

theorem reserveVector_nonneg {n : Int32} (h : 0 ≤ n) (bs : Bytes) :
    (reserveVector n).run bs = some (rounds n, bs) := by
  rw [reserveVector, if_neg (Int32.not_lt.mpr h)]
  rfl

-- What every decoder of a vector does once it has its count.
theorem bounded_vector_iff (hleast : Least put least)
    (hneg : count.1 < 0 → get.run bs = none)
    (hnonneg : 0 ≤ count.1 → ∃ out, (get.run bs).map Prod.fst = some out ∧
      out.reserved = rounds count.1 ∧ (items out.value).length = rounds count.1) :
    Bounded get items put count bs ↔ 0 ≤ count.1 ∧ Holds least count := by
  by_cases hsign : count.1 < 0
  · have hnot : ¬ 0 ≤ count.1 := Int32.not_le.mpr hsign
    simp only [hnot, false_and, iff_false]
    exact not_bounded_of_throw (hneg hsign)
  · have hle := Int32.not_lt.mp hsign
    obtain ⟨out, hrun, hreserved, hitems⟩ := hnonneg hle
    rw [bounded_iff_of_run hleast hrun hreserved hitems, and_iff_right hle]

end Counts

section Decoders

variable {α : Type} {put : α → Bytes} {least : Nat}

theorem bounded_readVec_iff {get : Decoder α} (htotal : Total get) (hleast : Least put least)
    (bs : Bytes) :
    Bounded (readVec get) id put (countAt bs) bs ↔
      0 ≤ (countAt bs).1 ∧ Holds least (countAt bs) := by
  have hrun : (readVec get).run bs =
      ((reserveVector (countAt bs).1).run (countAt bs).2).bind fun r =>
        ((getMany get (rounds (countAt bs).1)).run r.2).bind fun m => some (⟨m.1, r.1⟩, m.2) := rfl
  refine bounded_vector_iff hleast ?_ ?_
  · intro hneg
    rw [hrun, reserveVector_neg hneg]
    rfl
  · intro hnonneg
    obtain ⟨v, rest, hmany, hlength⟩ := getMany_total htotal (rounds (countAt bs).1) (countAt bs).2
    refine ⟨⟨v, rounds (countAt bs).1⟩, ?_, rfl, hlength⟩
    rw [hrun, reserveVector_nonneg hnonneg, Option.bind_some, hmany]
    rfl

theorem bounded_readBoolVec_iff (bs : Bytes) :
    Bounded readBoolVec id putFlag (countAt bs) bs ↔
      0 ≤ (countAt bs).1 ∧ Holds 1 (countAt bs) :=
  bounded_readVec_iff total_getFlag least_flag bs

-- The two paths stand before the count.
def prioritiesCount (bs : Bytes) : Int32 × Bytes :=
  countAt (qt.string.get (qt.string.get bs).2).2

theorem bounded_addTorrentWithPriorities_iff (bs : Bytes) :
    Bounded (getAddTorrentWithPriorities qt) AddTorrentWithPriorities.priorities putI32
        (prioritiesCount qt bs) bs ↔
      0 ≤ (prioritiesCount qt bs).1 ∧ Holds 4 (prioritiesCount qt bs) := by
  have hrun : (getAddTorrentWithPriorities qt).run bs =
      ((reserveVector (prioritiesCount qt bs).1).run (prioritiesCount qt bs).2).bind fun r =>
        ((getMany getI32 (rounds (prioritiesCount qt bs).1)).run r.2).bind fun m =>
          some (⟨⟨(qt.string.get bs).1, (qt.string.get (qt.string.get bs).2).1, m.1⟩, r.1⟩, m.2) :=
    rfl
  refine bounded_vector_iff least_i32 ?_ ?_
  · intro hneg
    rw [hrun, reserveVector_neg hneg]
    rfl
  · intro hnonneg
    obtain ⟨v, rest, hmany, hlength⟩ :=
      getMany_total total_getI32 (rounds (prioritiesCount qt bs).1) (prioritiesCount qt bs).2
    refine ⟨⟨⟨(qt.string.get bs).1, (qt.string.get (qt.string.get bs).2).1, v⟩,
      rounds (prioritiesCount qt bs).1⟩, ?_, rfl, hlength⟩
    rw [hrun, reserveVector_nonneg hnonneg, Option.bind_some, hmany]
    rfl

-- The hashes stand before the count of the rows.
def rowsCount (bs : Bytes) : Int32 × Bytes := countAt (qt.strings.get bs).2

-- On these bytes it gives a value of this kind.
def GivesAt {α : Type} (get : Decoder α) (bs : Bytes) (P : α → Prop) : Prop :=
  ∃ a rest, get.run bs = some (a, rest) ∧ P a

theorem givesAt_bind {α β : Type} {get : Decoder α} {f : α → Decoder β} {P : β → Prop}
    {bs rest : Bytes} {a : α} (h : get.run bs = some (a, rest)) (h' : GivesAt (f a) rest P) :
    GivesAt (get >>= f) bs P := by
  obtain ⟨b, rest', hrun, hb⟩ := h'
  refine ⟨b, rest', ?_, hb⟩
  rw [StateT.run_bind, h]
  exact hrun

theorem givesAt_total {α β : Type} {get : Decoder α} {f : α → Decoder β} {P : β → Prop}
    (h : Total get) (h' : ∀ a bs, GivesAt (f a) bs P) (bs : Bytes) : GivesAt (get >>= f) bs P := by
  obtain ⟨a, rest, hrun⟩ := h bs
  exact givesAt_bind hrun (h' a rest)

theorem givesAt_last {α β : Type} {get : Decoder α} {f : α → β} {P : β → Prop} (h : Total get)
    (h' : ∀ a, P (f a)) (bs : Bytes) : GivesAt (get >>= fun a => pure (f a)) bs P :=
  givesAt_total h (fun a bs => ⟨f a, bs, rfl, h' a⟩) bs

theorem givesAt_engineSnapshot (bs : Bytes) :
    GivesAt (getEngineSnapshot qt) bs fun out =>
      out.reserved = rounds (rowsCount qt bs).1 ∧
        out.value.rows.length = rounds (rowsCount qt bs).1 := by
  obtain ⟨rows, rest, hrows, hlength⟩ :=
    getMany_total (total_torrentInfo qt) (rounds (rowsCount qt bs).1) (rowsCount qt bs).2
  refine givesAt_bind (rfl : qt.strings.read.run bs = _) ?_
  refine givesAt_bind (run_getI32 _) (givesAt_bind hrows ?_)
  refine givesAt_total total_getI64 (fun _ => givesAt_total total_getI64 fun _ => ?_) rest
  refine givesAt_total total_getI64 fun _ => givesAt_total total_getI64 fun _ => ?_
  refine givesAt_total (total_read _) fun _ => givesAt_total total_getI32 fun _ => ?_
  refine givesAt_total total_getI32 fun _ => givesAt_total total_getI32 fun _ => ?_
  refine givesAt_total total_getBool fun _ => givesAt_total total_getBool fun _ => ?_
  exact givesAt_last total_detailedStats fun _ => ⟨rfl, hlength⟩

-- The list that takes the rows makes nothing of a negative count.
theorem bounded_engineSnapshot_iff (bs : Bytes) :
    Bounded (getEngineSnapshot qt) EngineSnapshot.rows (putTorrentInfo qt) (rowsCount qt bs) bs ↔
      Holds (leastTorrentInfo qt) (rowsCount qt bs) := by
  obtain ⟨out, rest, hrun, hreserved, hitems⟩ := givesAt_engineSnapshot qt bs
  have hfirst : ((getEngineSnapshot qt).run bs).map Prod.fst = some out := by
    rw [hrun]
    rfl
  exact bounded_iff_of_run (least_torrentInfo qt) hfirst hreserved hitems

end Decoders

section Malformed

-- When each decoder stays within the bytes that it is handed.
structure BoundedExactly (bs : Bytes) : Prop where
  snapshot : Bounded (getEngineSnapshot qt) EngineSnapshot.rows (putTorrentInfo qt)
      (rowsCount qt bs) bs ↔ Holds (leastTorrentInfo qt) (rowsCount qt bs)
  files : Bounded (readVec (getFileInfo qt)) id (putFileInfo qt) (countAt bs) bs ↔
    0 ≤ (countAt bs).1 ∧ Holds (leastFileInfo qt) (countAt bs)
  peers : Bounded (readVec (getPeerInfo qt)) id (putPeerInfo qt) (countAt bs) bs ↔
    0 ≤ (countAt bs).1 ∧ Holds (leastPeerInfo qt) (countAt bs)
  trackers : Bounded (readVec (getTrackerInfo qt)) id (putTrackerInfo qt) (countAt bs) bs ↔
    0 ≤ (countAt bs).1 ∧ Holds (leastTrackerInfo qt) (countAt bs)
  pieces : Bounded readBoolVec id putFlag (countAt bs) bs ↔
    0 ≤ (countAt bs).1 ∧ Holds 1 (countAt bs)
  priorities : Bounded (getAddTorrentWithPriorities qt) AddTorrentWithPriorities.priorities putI32
      (prioritiesCount qt bs) bs ↔
    0 ≤ (prioritiesCount qt bs).1 ∧ Holds 4 (prioritiesCount qt bs)

theorem boundedExactly (bs : Bytes) : BoundedExactly qt bs where
  snapshot := bounded_engineSnapshot_iff qt bs
  files := bounded_readVec_iff (total_fileInfo qt) (least_fileInfo qt) bs
  peers := bounded_readVec_iff (total_peerInfo qt) (least_peerInfo qt) bs
  trackers := bounded_readVec_iff (total_trackerInfo qt) (least_trackerInfo qt) bs
  pieces := bounded_readBoolVec_iff bs
  priorities := bounded_addTorrentWithPriorities_iff qt bs

theorem boundedExactly_plainQt : BoundedExactly plainQt [] := boundedExactly plainQt []

-- Four bytes that ask for all the elements there can be, and four that ask for less than none.
theorem not_bounded_readBoolVec :
    ¬ Bounded readBoolVec id putFlag (countAt [127, 255, 255, 255]) [127, 255, 255, 255] ∧
      ¬ Bounded readBoolVec id putFlag (countAt [255, 255, 255, 255]) [255, 255, 255, 255] := by
  constructor
  · rw [bounded_readBoolVec_iff]
    decide +kernel
  · rw [bounded_readBoolVec_iff]
    decide +kernel

end Malformed

end BATorrent.EngineWire
