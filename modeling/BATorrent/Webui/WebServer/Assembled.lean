import BATorrent.Webui.WebServer.Assembly

namespace BATorrent.WebServer

open Lib Lib.ByteText
open Lib.DataStream (Bytes)

section Reads

def Read.pending : Read → PendingRequest
  | .wait p => p
  | .refused p _ => p
  | .complete p _ => p

-- What a read hands to the dispatch.
def Read.dispatches : Read → Option Bytes
  | .wait _ => none
  | .refused _ _ => none
  | .complete _ requestData => some requestData

def Read.isRefused : Read → Bool
  | .wait _ => false
  | .refused _ _ => true
  | .complete _ _ => false

-- What a socket has after some reads.
def pendingAfter (p : PendingRequest) (reads : List Bytes) : PendingRequest :=
  reads.foldl (fun p bytes => (readMore p bytes).pending) p

-- What is dispatched in the course of some reads.
def dispatched (p : PendingRequest) : List Bytes → List Bytes
  | [] => []
  | bytes :: reads =>
      (readMore p bytes).dispatches.toList ++ dispatched (readMore p bytes).pending reads

end Reads

section Assembling

def blankLine (bytes : Bytes) : Option Nat := indexOf (crlf ++ crlf) bytes

-- How many bytes the server waits for, as the sum comes out in 32 bits.
def needed (bytes : Bytes) (stop : Nat) : Int :=
  (Int32.ofNat (stop + 4) + contentLengthOf (bytes.take (stop + 4))).toInt

def Whole (bytes : Bytes) : Prop := ∃ stop, blankLine bytes = some stop ∧ needed bytes stop ≤ bytes.length

def Oversized (bytes : Bytes) : Prop :=
  ∃ stop, blankLine bytes = some stop ∧
    (contentLengthOf (bytes.take (stop + 4)) < 0 ∨ 200 * 1024 * 1024 < contentLengthOf (bytes.take (stop + 4)))

-- A read that is answered with an error: the headers are too long and have no end, or they end with it
-- and say a length that is out of bounds.
def Rejected (before bytes : Bytes) : Prop :=
  blankLine (before ++ bytes) = none ∧ 32 * 1024 < (before ++ bytes).length ∨
    blankLine before = none ∧ Oversized (before ++ bytes)

-- What is pending while nothing was dispatched.
structure Assembling (p : PendingRequest) (bytes : Bytes) : Prop where
  dispatched : p.dispatched = false
  buffer : p.buffer = bytes
  parsed : p.headersParsed = (blankLine bytes).isSome
  header : ∀ stop, blankLine bytes = some stop →
    p.headerEnd = stop + 4 ∧ p.contentLength = contentLengthOf (bytes.take (stop + 4))

theorem assembling_init : Assembling .init [] := ⟨rfl, rfl, rfl, nofun⟩

theorem blankLine_append {before : Bytes} {stop : Nat} (h : blankLine before = some stop) (bytes : Bytes) :
    blankLine (before ++ bytes) = some stop ∧ (before ++ bytes).take (stop + 4) = before.take (stop + 4) := by
  refine ⟨indexOf_append h bytes, List.take_append_of_le_length ?_⟩
  have hle := add_length_le_of_indexOf h
  rwa [show (crlf ++ crlf).length = 4 from rfl] at hle

variable {p : PendingRequest} {before : Bytes}

-- The three ways of a read, as the bytes have it.
inductive Reading (before bytes : Bytes) : Read → Prop where
  | refused {p' : PendingRequest} {status : Nat} (hrejected : Rejected before bytes)
      (h : Assembling p' (before ++ bytes)) : Reading before bytes (.refused p' status)
  | wait {p' : PendingRequest} (hrejected : ¬ Rejected before bytes) (hwhole : ¬ Whole (before ++ bytes))
      (h : Assembling p' (before ++ bytes)) : Reading before bytes (.wait p')
  | complete {p' : PendingRequest} {stop : Nat} (hrejected : ¬ Rejected before bytes)
      (hwhole : Whole (before ++ bytes)) (hstop : blankLine (before ++ bytes) = some stop)
      (hdispatched : p'.dispatched = true) :
      Reading before bytes (.complete p' ((before ++ bytes).take (needed (before ++ bytes) stop).toNat))

theorem reading_readBody {bytes : Bytes} {stop : Nat} (h : Assembling p (before ++ bytes))
    (hstop : blankLine (before ++ bytes) = some stop) (hrejected : ¬ Rejected before bytes) :
    Reading before bytes (readBody p) := by
  obtain ⟨hend, hlength⟩ := h.header stop hstop
  have hneeded : (Int32.ofNat p.headerEnd + p.contentLength).toInt = needed (before ++ bytes) stop := by
    rw [hend, hlength]
    rfl
  unfold readBody
  dsimp only
  rw [hneeded, h.buffer]
  split_ifs with hshort
  · refine .wait hrejected (fun hwhole => ?_) h
    obtain ⟨stop', hstop', hle⟩ := hwhole
    obtain rfl := Option.some.inj (hstop.symm.trans hstop')
    omega
  · exact .complete hrejected ⟨stop, hstop, by omega⟩ hstop rfl

theorem reading_readMore (h : Assembling p before) (bytes : Bytes) : Reading before bytes (readMore p bytes) := by
  unfold readMore
  rw [if_neg (by rw [h.dispatched]; exact Bool.false_ne_true)]
  dsimp only
  rw [h.buffer]
  by_cases hparsed : p.headersParsed = true
  · rw [if_pos hparsed]
    rw [h.parsed] at hparsed
    obtain ⟨stop, hstop⟩ := Option.isSome_iff_exists.mp hparsed
    obtain ⟨hstop', htake⟩ := blankLine_append hstop bytes
    have hheader := h.header stop hstop
    refine reading_readBody ⟨h.dispatched, rfl, ?_, fun stop' hfound => ?_⟩ hstop' fun hrejected => ?_
    · rw [hstop']
      exact h.parsed.trans hparsed
    · obtain rfl := Option.some.inj (hstop'.symm.trans hfound)
      rwa [htake]
    · rcases hrejected with ⟨hnone, -⟩ | ⟨hnone, -⟩
      · rw [hstop'] at hnone
        cases hnone
      · rw [hstop] at hnone
        cases hnone
  · rw [if_neg hparsed]
    have hnone : blankLine before = none := by
      rw [h.parsed] at hparsed
      simpa using hparsed
    cases hstop : indexOf (crlf ++ crlf) (before ++ bytes) with
    | none =>
        have hpending : Assembling { p with buffer := before ++ bytes } (before ++ bytes) := by
          refine ⟨h.dispatched, rfl, ?_, fun stop hfound => ?_⟩
          · rw [show blankLine (before ++ bytes) = none from hstop]
            simpa using hparsed
          · rw [show blankLine (before ++ bytes) = none from hstop] at hfound
            cases hfound
        dsimp only
        split_ifs with hlong
        · exact .refused (.inl ⟨hstop, hlong⟩) hpending
        · refine .wait ?_ ?_ hpending
          · rintro (⟨-, hlong'⟩ | ⟨-, stop, hfound, -⟩)
            · exact hlong hlong'
            · rw [show blankLine (before ++ bytes) = none from hstop] at hfound
              cases hfound
          · rintro ⟨stop, hfound, -⟩
            rw [show blankLine (before ++ bytes) = none from hstop] at hfound
            cases hfound
    | some stop =>
        have hpending : Assembling { p with
            buffer := before ++ bytes
            headerEnd := stop + 4
            headersParsed := true
            contentLength := contentLengthOf ((before ++ bytes).take (stop + 4)) } (before ++ bytes) := by
          refine ⟨h.dispatched, rfl, ?_, fun stop' hfound => ?_⟩
          · rw [show blankLine (before ++ bytes) = some stop from hstop]
            rfl
          · obtain rfl := Option.some.inj (hstop.symm.trans hfound)
            exact ⟨rfl, rfl⟩
        change Reading before bytes
          (if contentLengthOf ((before ++ bytes).take (stop + 4)) < 0 ∨
            200 * 1024 * 1024 < contentLengthOf ((before ++ bytes).take (stop + 4)) then _ else _)
        by_cases hsize : contentLengthOf ((before ++ bytes).take (stop + 4)) < 0 ∨
            200 * 1024 * 1024 < contentLengthOf ((before ++ bytes).take (stop + 4))
        · rw [if_pos hsize]
          exact .refused (.inr ⟨hnone, stop, hstop, hsize⟩) hpending
        · rw [if_neg hsize]
          refine reading_readBody hpending hstop ?_
          rintro (⟨hnone', -⟩ | ⟨-, stop', hfound, hsize'⟩)
          · rw [show blankLine (before ++ bytes) = some stop from hstop] at hnone'
            cases hnone'
          · obtain rfl := Option.some.inj (hstop.symm.trans hfound)
            exact hsize hsize'

end Assembling

section Dispatched

variable {p : PendingRequest} {before : Bytes}

theorem readMore_dispatched (h : p.dispatched = true) (bytes : Bytes) : readMore p bytes = .wait p := by
  unfold readMore
  rw [if_pos h]

theorem dispatched_dispatched (h : p.dispatched = true) (reads : List Bytes) : dispatched p reads = [] := by
  induction reads with
  | nil => rfl
  | cons bytes reads ih =>
      unfold dispatched
      rw [readMore_dispatched h]
      exact ih

-- What is pending was not dispatched, or the blank line is there.
theorem pendingAfter_init (reads : List Bytes) :
    Assembling (pendingAfter .init reads) reads.flatten ∨
      (pendingAfter .init reads).dispatched = true ∧ blankLine reads.flatten ≠ none := by
  induction reads using List.reverseRecOn with
  | nil => exact .inl assembling_init
  | append_singleton reads bytes ih =>
      have hpending : pendingAfter .init (reads ++ [bytes]) = (readMore (pendingAfter .init reads) bytes).pending := by
        unfold pendingAfter
        rw [List.foldl_append]
        rfl
      have hflatten : (reads ++ [bytes]).flatten = reads.flatten ++ bytes := by simp
      rw [hpending, hflatten]
      rcases ih with h | ⟨h, hblank⟩
      · have hreading := reading_readMore h bytes
        generalize readMore (pendingAfter .init reads) bytes = read at hreading ⊢
        cases hreading with
        | refused hrejected h' => exact .inl h'
        | wait hrejected hwhole h' => exact .inl h'
        | complete hrejected hwhole hstop h' =>
            refine .inr ⟨h', ?_⟩
            rw [hstop]
            exact nofun
      · rw [readMore_dispatched h]
        obtain ⟨stop, hstop⟩ := Option.ne_none_iff_exists'.mp hblank
        refine .inr ⟨h, ?_⟩
        rw [(blankLine_append hstop bytes).1]
        exact nofun

-- A request that is dispatched is so by one of the reads.
theorem exists_dispatches {reads : List Bytes} (hp : Assembling p before)
    (h : (pendingAfter p reads).dispatched = true) :
    ∃ earlier bytes later, reads = earlier ++ bytes :: later ∧
      (readMore (pendingAfter p earlier) bytes).dispatches.isSome = true := by
  induction reads generalizing p before with
  | nil => exact absurd (hp.dispatched.symm.trans h) Bool.false_ne_true
  | cons bytes reads ih =>
      have later : Assembling (readMore p bytes).pending (before ++ bytes) →
          ∃ earlier b later, bytes :: reads = earlier ++ b :: later ∧
            (readMore (pendingAfter p earlier) b).dispatches.isSome = true := by
        intro hp'
        obtain ⟨earlier, b, later, rfl, hsome⟩ := ih hp' h
        exact ⟨bytes :: earlier, b, later, rfl, hsome⟩
      have hreading := reading_readMore hp bytes
      cases hread : readMore p bytes with
      | complete p' requestData =>
          exact ⟨[], bytes, reads, rfl, congrArg (fun r => r.dispatches.isSome) hread⟩
      | wait p' =>
          rw [hread] at hreading later
          cases hreading with
          | wait hrejected hwhole hp' => exact later hp'
      | refused p' status =>
          rw [hread] at hreading later
          cases hreading with
          | refused hrejected hp' => exact later hp'

end Dispatched

section HttpRequest

variable {q : HttpRequest} {p : PendingRequest} {before sent data : Bytes} {m : Nat}

theorem four_le_block (q : HttpRequest) : 4 ≤ q.block.length := by
  have hblock : 2 ≤ (Field.block q.fields).length := by
    cases q.fields with
    | nil => exact Nat.le_refl _
    | cons f fields =>
        simp only [Field.block, List.length_append, show crlf.length = 2 from rfl]
        omega
  unfold HttpRequest.block
  simp only [List.length_append, show crlf.length = 2 from rfl]
  omega

theorem blankLine_block (q : HttpRequest) (rest : Bytes) :
    blankLine (q.block ++ rest) = some (q.block.length - 4) := by
  unfold blankLine HttpRequest.block
  rw [List.append_assoc (q.line ++ crlf)]
  exact indexOf_blank q.fields q.line_clean rest

-- Before the block is there nothing looks like its end.
theorem blankLine_short (hsent : sent <+: q.block) (hlt : sent.length < q.block.length) : blankLine sent = none := by
  cases hstop : blankLine sent with
  | none => rfl
  | some stop =>
      exfalso
      obtain ⟨rest, hrest⟩ := hsent
      have hblock := (blankLine_append hstop rest).1
      have hwhole := blankLine_block q []
      rw [List.append_nil, ← hrest, hblock] at hwhole
      have hle := add_length_le_of_indexOf hstop
      rw [Option.some.injEq, hrest] at hwhole
      rw [show (crlf ++ crlf).length = 4 from rfl] at hle
      have hfour := four_le_block q
      omega

theorem take_block (q : HttpRequest) (rest : Bytes) : (q.block ++ rest).take (q.block.length - 4 + 4) = q.block := by
  rw [Nat.sub_add_cancel (four_le_block q), List.take_left]

section Length

variable (hlength : contentLengthOf q.block = Int32.ofInt m) (hle : m ≤ 200 * 1024 * 1024)
include hlength hle

theorem needed_block (rest : Bytes) :
    needed (q.block ++ rest) (q.block.length - 4) = (q.block.length + m : Nat) := by
  have hblock : q.block.length ≤ 32 * 1024 := q.block_le
  unfold needed
  rw [take_block, hlength, Nat.sub_add_cancel (four_le_block q), Int32.ofInt_eq_ofNat, ← Int32.ofNat_add,
    Int32.toInt_ofNat_of_lt (by omega)]

theorem whole_block (rest : Bytes) : Whole (q.block ++ rest) ↔ q.block.length + m ≤ (q.block ++ rest).length := by
  have hneeded := needed_block hlength hle rest
  constructor
  · rintro ⟨stop, hstop, hwhole⟩
    obtain rfl := Option.some.inj ((blankLine_block q rest).symm.trans hstop)
    omega
  · exact fun h => ⟨_, blankLine_block q rest, by omega⟩

theorem not_oversized_block (rest : Bytes) : ¬ Oversized (q.block ++ rest) := by
  rintro ⟨stop, hstop, hsize⟩
  obtain rfl := Option.some.inj ((blankLine_block q rest).symm.trans hstop)
  rw [take_block, hlength, Int32.lt_iff_toInt_lt, Int32.lt_iff_toInt_lt,
    Int32.toInt_ofInt_of_le (by omega) (by omega)] at hsize
  have hmax : (200 * 1024 * 1024 : Int32).toInt = 200 * 1024 * 1024 := by decide
  rw [hmax, Int32.toInt_zero] at hsize
  omega

-- No part of a request is answered with an error.
theorem not_rejected {bytes : Bytes}
    (hsent : before ++ bytes <+: q.block ∧ (before ++ bytes).length < q.block.length ∨
      ∃ rest, before ++ bytes = q.block ++ rest) : ¬ Rejected before bytes := by
  have hblock : q.block.length ≤ 32 * 1024 := q.block_le
  rintro (⟨hnone, hlong⟩ | ⟨-, hsize⟩)
  · rcases hsent with ⟨-, hlt⟩ | ⟨rest, hrest⟩
    · omega
    · rw [hrest, blankLine_block] at hnone
      cases hnone
  · rcases hsent with ⟨hbegins, hlt⟩ | ⟨rest, hrest⟩
    · obtain ⟨stop, hstop, -⟩ := hsize
      rw [blankLine_short hbegins hlt] at hstop
      cases hstop
    · rw [hrest] at hsize
      exact not_oversized_block hlength hle rest hsize

-- The block and as many bytes as the server takes for its length are dispatched, and nothing else is.
theorem dispatched_block {reads : List Bytes} (hp : Assembling p before) (hdata : data.length = m)
    (hshort : before.length < q.block.length + m) (hsent : q.block ++ data <+: before ++ reads.flatten) :
    dispatched p reads = [q.block ++ data] := by
  induction reads generalizing p before with
  | nil =>
      have hlen := hsent.length_le
      rw [List.flatten_nil, List.append_nil, List.length_append, hdata] at hlen
      omega
  | cons bytes reads ih =>
      have hflatten : before ++ (bytes :: reads).flatten = before ++ bytes ++ reads.flatten := by simp
      rw [hflatten] at hsent
      have hblock : q.block <+: before ++ bytes ++ reads.flatten := (List.prefix_append _ data).trans hsent
      have hway : before ++ bytes <+: q.block ∧ (before ++ bytes).length < q.block.length ∨
          ∃ rest, before ++ bytes = q.block ++ rest := by
        by_cases hlt : (before ++ bytes).length < q.block.length
        · exact .inl ⟨List.prefix_of_prefix_length_le (List.prefix_append _ _) hblock hlt.le, hlt⟩
        · obtain ⟨rest, hrest⟩ := List.prefix_of_prefix_length_le hblock (List.prefix_append _ _) (Nat.not_lt.mp hlt)
          exact .inr ⟨rest, hrest.symm⟩
      have haccepted := not_rejected hlength hle hway
      have hwhole : Whole (before ++ bytes) ↔ q.block.length + m ≤ (before ++ bytes).length := by
        rcases hway with ⟨hbegins, hlt⟩ | ⟨rest, hrest⟩
        · refine iff_of_false ?_ (by omega)
          rintro ⟨stop, hstop, -⟩
          rw [blankLine_short hbegins hlt] at hstop
          cases hstop
        · rw [hrest]
          exact whole_block hlength hle rest
      have hreading := reading_readMore hp bytes
      unfold dispatched
      generalize readMore p bytes = read at hreading ⊢
      cases hreading with
      | refused hrejected hp' => exact absurd hrejected haccepted
      | wait hrejected hpart hp' =>
          rw [hwhole, Nat.not_le] at hpart
          exact ih hp' hpart hsent
      | complete hrejected hall hstop hdispatched =>
          rename_i p' stop
          rw [hwhole] at hall
          rw [show (Read.complete p' _).pending = p' from rfl, dispatched_dispatched hdispatched]
          obtain ⟨hbegins, hlt⟩ | ⟨rest, hrest⟩ := hway
          · omega
          · have hneeded := needed_block hlength hle rest
            rw [hrest] at hstop
            obtain rfl := Option.some.inj ((blankLine_block q rest).symm.trans hstop)
            have hpart := List.prefix_of_prefix_length_le hsent (List.prefix_append _ reads.flatten)
              (by rw [List.length_append, hdata]; exact hall)
            have htake := List.prefix_iff_eq_take.mp hpart
            rw [List.length_append, hdata] at htake
            have hsum : (needed (before ++ bytes) (q.block.length - 4)).toNat = q.block.length + m := by
              rw [hrest, hneeded, Int.toNat_natCast]
            rw [hsum, ← htake]
            rfl

end Length

-- Every way to cut a request into reads, with whatever comes after it, dispatches just the request.
def Assembles (q : HttpRequest) : Prop :=
  ∀ reads : List Bytes, q.bytes <+: reads.flatten → dispatched .init reads = [q.bytes]

theorem assembles_iff (q : HttpRequest) : Assembles q ↔ q.Spelled ∨ q.length = 0 := by
  constructor
  · intro h
    by_contra hneither
    obtain ⟨hspelled, hlength⟩ := not_or.mp hneither
    have hblock : dispatched .init [q.bytes] = [q.block ++ []] := dispatched_block (m := 0)
      (contentLengthOf_unspelled hspelled) (Nat.zero_le _) assembling_init rfl
      (by have := four_le_block q; rw [List.length_nil]; omega)
      (by unfold HttpRequest.bytes; simp)
    rw [h [q.bytes] (by simp), List.append_nil] at hblock
    have hlen := congrArg List.length (List.singleton_inj.mp hblock)
    unfold HttpRequest.bytes at hlen
    rw [List.length_append, q.body_length] at hlen
    omega
  · intro h reads hsent
    have hshort : ([] : Bytes).length < q.block.length + q.length := by
      have hfour := four_le_block q
      rw [List.length_nil]
      omega
    refine dispatched_block ?_ q.length_le assembling_init q.body_length hshort hsent
    by_cases hspelled : q.Spelled
    · exact contentLengthOf_spelled hspelled
    · rw [contentLengthOf_unspelled hspelled, h.resolve_left hspelled]
      rfl

end HttpRequest

section Refused

-- A read that is answered with an error is followed by none that dispatches.
def SilentOnceRefused (reads : List Bytes) : Prop :=
  ∀ earlier refused between later after, reads = earlier ++ refused :: between ++ later :: after →
    (readMore (pendingAfter .init earlier) refused).isRefused = true →
      (readMore (pendingAfter .init (earlier ++ refused :: between)) later).dispatches = none

-- After a read that is answered with an error none brings the bytes to where they look whole, unless it
-- is answered with one itself.
def LeftPartial (reads : List Bytes) : Prop :=
  ∀ earlier refused between later after, reads = earlier ++ refused :: between ++ later :: after →
    Rejected earlier.flatten refused → Whole ((earlier ++ refused :: between).flatten ++ later) →
      Rejected (earlier ++ refused :: between).flatten later

theorem blankLine_of_rejected {before bytes : Bytes} (h : Rejected before bytes) : blankLine before = none := by
  rcases h with ⟨hnone, -⟩ | ⟨hnone, -⟩
  · cases hstop : blankLine before with
    | none => rfl
    | some stop =>
        rw [(blankLine_append hstop bytes).1] at hnone
        cases hnone
  · exact hnone

theorem isRefused_iff (reads : List Bytes) (bytes : Bytes) :
    (readMore (pendingAfter .init reads) bytes).isRefused = true ↔ Rejected reads.flatten bytes := by
  rcases pendingAfter_init reads with hp | ⟨hdispatched, hblank⟩
  · have hreading := reading_readMore hp bytes
    generalize readMore (pendingAfter .init reads) bytes = read at hreading ⊢
    cases hreading with
    | refused hrejected hp' => exact iff_of_true rfl hrejected
    | wait hrejected hwhole hp' => exact iff_of_false Bool.false_ne_true hrejected
    | complete hrejected hwhole hstop hdispatched => exact iff_of_false Bool.false_ne_true hrejected
  · rw [readMore_dispatched hdispatched]
    exact iff_of_false Bool.false_ne_true fun h => hblank (blankLine_of_rejected h)

theorem assembling_of_rejected {reads : List Bytes} {bytes : Bytes} (h : Rejected reads.flatten bytes) :
    Assembling (readMore (pendingAfter .init reads) bytes).pending (reads.flatten ++ bytes) := by
  rcases pendingAfter_init reads with hp | ⟨-, hblank⟩
  · have hreading := reading_readMore hp bytes
    generalize readMore (pendingAfter .init reads) bytes = read at hreading ⊢
    cases hreading with
    | refused hrejected hp' => exact hp'
    | wait hrejected hwhole hp' => exact absurd h hrejected
    | complete hrejected hwhole hstop hdispatched => exact absurd h hrejected
  · exact absurd (blankLine_of_rejected h) hblank

theorem pendingAfter_append (p : PendingRequest) (reads : List Bytes) (bytes : Bytes) (more : List Bytes) :
    pendingAfter p (reads ++ bytes :: more) = pendingAfter (readMore (pendingAfter p reads) bytes).pending more := by
  unfold pendingAfter
  rw [List.foldl_append]
  rfl

theorem dispatches_eq_none_iff {p : PendingRequest} {before : Bytes} (hp : Assembling p before) (bytes : Bytes) :
    (readMore p bytes).dispatches = none ↔ (Whole (before ++ bytes) → Rejected before bytes) := by
  have hreading := reading_readMore hp bytes
  generalize readMore p bytes = read at hreading ⊢
  cases hreading with
  | refused hrejected hp' => exact iff_of_true rfl fun _ => hrejected
  | wait hrejected hwhole hp' => exact iff_of_true rfl fun h => absurd h hwhole
  | complete hrejected hwhole hstop hdispatched => exact iff_of_false nofun fun h => hrejected (h hwhole)

theorem silentOnceRefused_iff (reads : List Bytes) : SilentOnceRefused reads ↔ LeftPartial reads := by
  constructor
  · intro h earlier refused between later after hreads hrejected
    rcases pendingAfter_init (earlier ++ refused :: between) with hp | ⟨hdispatched, -⟩
    · exact (dispatches_eq_none_iff hp later).mp
        (h earlier refused between later after hreads ((isRefused_iff _ _).mpr hrejected))
    · -- Something between the two was dispatched, which is after the error too.
      exfalso
      rw [pendingAfter_append] at hdispatched
      obtain ⟨more, bytes, rest, rfl, hsome⟩ := exists_dispatches (assembling_of_rejected hrejected) hdispatched
      have hnone := h earlier refused more bytes (rest ++ later :: after) (by rw [hreads]; simp)
        ((isRefused_iff _ _).mpr hrejected)
      rw [pendingAfter_append] at hnone
      rw [hnone] at hsome
      cases hsome
  · intro h earlier refused between later after hreads hrefused
    rcases pendingAfter_init (earlier ++ refused :: between) with hp | ⟨hdispatched, -⟩
    · exact (dispatches_eq_none_iff hp later).mpr
        (h earlier refused between later after hreads ((isRefused_iff _ _).mp hrefused))
    · rw [readMore_dispatched hdispatched]
      rfl

end Refused

-- Exactly where the header of a length is spelled as the server looks for it, or there is no length, is a
-- request dispatched however it is cut; and exactly where the bytes after an error do not make up a whole
-- request is nothing dispatched after it.
theorem readMore_assembles (q : HttpRequest) (reads : List Bytes) :
    (Assembles q ↔ q.Spelled ∨ q.length = 0) ∧ (SilentOnceRefused reads ↔ LeftPartial reads) :=
  ⟨assembles_iff q, silentOnceRefused_iff reads⟩

def lowerCaseLength : Field where
  name := ascii "content-length"
  gap := [32]
  value := [50]
  rest := []
  name_ne_nil := List.cons_ne_nil _ _
  name_clean := ⟨by decide, by decide, by decide⟩
  gap_blank b hb := .inl (List.mem_singleton.mp hb)
  value_clean := ⟨by decide, by decide⟩
  rest_blank := nofun

-- Two bytes are posted, with the name of the length in small letters.
def lowerCase : HttpRequest where
  method := ascii "POST"
  target := ascii "/api/login HTTP/1.1"
  fields := [lowerCaseLength]
  length := 2
  body := ascii "{}"
  method_clean := ⟨by decide, by decide, by decide⟩
  target_clean := ⟨by decide, by decide⟩
  says_length f hf _ := List.mem_singleton.mp hf ▸ rfl
  no_length h := absurd rfl (h lowerCaseLength List.mem_cons_self)
  length_le := by decide
  body_length := rfl
  block_le := by decide +kernel

-- A length below zero is refused, and one byte more has the request dispatched.
def negative : Bytes := ascii "GET / HTTP/1.1\r\nContent-Length: -1\r\n\r\n"

theorem not_assembles :
    (¬ ∀ q : HttpRequest, Assembles q) ∧ ¬ ∀ reads : List Bytes, SilentOnceRefused reads := by
  constructor
  · intro h
    rcases (assembles_iff lowerCase).mp (h lowerCase) with ⟨f, hf, hspelled⟩ | hlength
    · rw [List.mem_singleton.mp hf] at hspelled
      exact absurd hspelled (by unfold Field.Spelled; decide)
    · exact absurd hlength (by decide)
  · intro h
    have hnone := h [negative, [120]] [] negative [] [120] [] rfl (by decide +kernel)
    exact absurd hnone (by decide +kernel)

end BATorrent.WebServer
