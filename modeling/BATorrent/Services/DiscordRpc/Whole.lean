import BATorrent.Services.DiscordRpc

namespace BATorrent.DiscordRpc

open Lib (LittleEndian.bytes LittleEndian.length_bytes)
open Lib.DataStream (Bytes QString)

structure Frame where
  op : UInt32
  body : Bytes
  fits : body.length < 2 ^ 32

def Frame.header (f : Frame) : Bytes := LittleEndian.bytes 4 f.op.toNat ++ LittleEndian.bytes 4 f.body.length

def Frame.encode (f : Frame) : Bytes := f.header ++ f.body

def stream (frames : List Frame) : Bytes := frames.flatMap Frame.encode

def Frame.size (f : Frame) : Nat := 8 + f.body.length

-- The frames of which the first n bytes of the stream hold the whole.
def arrived : List Frame → Nat → List Frame
  | [], _ => []
  | f :: fs, n => if n < f.size then [] else f :: arrived fs (n - f.size)

-- What the first n bytes hold of the frame after those.
def begun : List Frame → Nat → Bytes
  | [], _ => []
  | f :: fs, n => if n < f.size then f.encode.take n else begun fs (n - f.size)

-- A connection ends with its first close frame.
def heard (cachedActivity : Option Activity) : Bool → List Frame → List Event
  | _, [] => []
  | greeted, f :: fs =>
      .treated f.op f.body ::
        if f.op = kOpClose then
          [.disconnected]
        else
          (if greeted then [] else replayed cachedActivity) ++ heard cachedActivity true fs

-- After every delivery the frames that arrived were treated, and nothing else was.
def ReadsWhole (s : Socket) (clientId : QString) (cachedActivity : Option Activity) (frames : List Frame)
    (deliveries : List Bytes) : Prop :=
  ∀ k, (session s clientId cachedActivity (deliveries.take k)).log =
    .sent kOpHandshake (.handshake clientId) ::
      heard cachedActivity false (arrived frames (deliveries.take k).flatten.length)

-- The first n bytes end past a header and before the end of its body.
def EndsInBody : List Frame → Nat → Prop
  | [], _ => False
  | f :: fs, n => if n < f.size then 8 ≤ n else f.op ≠ kOpClose ∧ EndsInBody fs (n - f.size)

instance decidableEndsInBody : (frames : List Frame) → (n : Nat) → Decidable (EndsInBody frames n)
  | [], _ => inferInstanceAs (Decidable False)
  | f :: fs, n =>
      have := decidableEndsInBody fs (n - f.size)
      inferInstanceAs (Decidable (if n < f.size then 8 ≤ n else f.op ≠ kOpClose ∧ EndsInBody fs (n - f.size)))

def BodiesUncut (frames : List Frame) (deliveries : List Bytes) : Prop :=
  ∀ k, ¬ EndsInBody frames (deliveries.take k).flatten.length

section Layout

@[simp] theorem length_header (f : Frame) : f.header.length = 8 := by
  rw [Frame.header, List.length_append, LittleEndian.length_bytes, LittleEndian.length_bytes]

@[simp] theorem length_encode (f : Frame) : f.encode.length = f.size := by
  rw [Frame.encode, List.length_append, length_header, Frame.size]

theorem stream_cons (f : Frame) (fs : List Frame) : stream (f :: fs) = f.encode ++ stream fs :=
  List.flatMap_cons

theorem stream_append (fs fs' : List Frame) : stream (fs ++ fs') = stream fs ++ stream fs' :=
  List.flatMap_append

theorem take_stream (frames : List Frame) (n : Nat) :
    (stream frames).take n = stream (arrived frames n) ++ begun frames n := by
  induction frames generalizing n with
  | nil => rw [arrived, begun]; exact List.take_nil
  | cons f fs ih =>
      rw [stream_cons, arrived, begun]
      split
      · next h =>
        rw [List.take_append_of_le_length (by rw [length_encode]; omega)]
        rfl
      · next h =>
        rw [stream_cons, List.append_assoc, ← ih, List.take_append, length_encode,
          List.take_of_length_le (by rw [length_encode]; omega)]

theorem arrived_mono (frames : List Frame) {n n' : Nat} (h : n ≤ n') :
    ∃ more, arrived frames n' = arrived frames n ++ more := by
  induction frames generalizing n n' with
  | nil => exact ⟨[], rfl⟩
  | cons f fs ih =>
      rw [arrived, arrived]
      by_cases hn : n < f.size
      · rw [if_pos hn]
        exact ⟨_, (List.nil_append _).symm⟩
      · obtain ⟨more, hmore⟩ := ih (Nat.sub_le_sub_right h f.size)
        refine ⟨more, ?_⟩
        rw [if_neg hn, if_neg (by omega), hmore, List.cons_append]

theorem begun_short {frames : List Frame} {n : Nat} (hopen : ∀ f ∈ arrived frames n, f.op ≠ kOpClose)
    (h : ¬ EndsInBody frames n) : (begun frames n).length < 8 := by
  induction frames generalizing n with
  | nil => exact Nat.succ_pos 7
  | cons f fs ih =>
      rw [EndsInBody] at h
      rw [arrived] at hopen
      rw [begun]
      by_cases hn : n < f.size
      · rw [if_pos hn] at h ⊢
        rw [List.length_take]
        omega
      · rw [if_neg hn] at h hopen ⊢
        apply ih
        · intro g hg
          exact hopen g (List.mem_cons_of_mem f hg)
        · intro hbody
          exact h ⟨hopen f List.mem_cons_self, hbody⟩

theorem begun_cut {frames : List Frame} {n : Nat} (h : EndsInBody frames n) :
    (∀ f ∈ arrived frames n, f.op ≠ kOpClose) ∧
      ∃ (f : Frame) (cut : Bytes), begun frames n = f.header ++ cut ∧ cut.length < f.body.length := by
  induction frames generalizing n with
  | nil => exact h.elim
  | cons f fs ih =>
      rw [EndsInBody] at h
      rw [arrived, begun]
      by_cases hn : n < f.size
      · rw [if_pos hn] at h ⊢
        refine ⟨fun g hg => absurd hg List.not_mem_nil, f, f.body.take (n - 8), ?_, ?_⟩
        · rw [if_pos hn, Frame.encode, List.take_append, length_header,
            List.take_of_length_le (by rw [length_header]; exact h)]
        · rw [Frame.size] at hn
          rw [List.length_take]
          omega
      · rw [if_neg hn] at h ⊢
        obtain ⟨hopen, hcut⟩ := ih h.2
        rw [if_neg hn]
        exact ⟨List.forall_mem_cons.mpr ⟨h.1, hopen⟩, hcut⟩

end Layout

section Heard

variable {cachedActivity : Option Activity}

theorem heard_append {fs : List Frame} (h : ∀ f ∈ fs, f.op ≠ kOpClose) (greeted : Bool) (fs' : List Frame) :
    heard cachedActivity greeted (fs ++ fs') =
      heard cachedActivity greeted fs ++ heard cachedActivity (greeted || !fs.isEmpty) fs' := by
  induction fs generalizing greeted with
  | nil => rw [List.nil_append, List.isEmpty_nil, Bool.not_true, Bool.or_false]; rfl
  | cons f fs ih =>
      obtain ⟨hf, hfs⟩ := List.forall_mem_cons.mp h
      rw [List.cons_append, heard, heard, if_neg hf, if_neg hf, ih hfs]
      simp

theorem heard_closed {fs : List Frame} (h : ∃ f ∈ fs, f.op = kOpClose) (greeted : Bool) (fs' : List Frame) :
    heard cachedActivity greeted (fs ++ fs') = heard cachedActivity greeted fs := by
  induction fs generalizing greeted with
  | nil => simp at h
  | cons f fs ih =>
      rw [List.cons_append, heard, heard]
      by_cases hf : f.op = kOpClose
      · rw [if_pos hf, if_pos hf]
      · rw [if_neg hf, if_neg hf, ih]
        obtain ⟨g, hg, hclose⟩ := h
        rcases List.mem_cons.mp hg with rfl | hg
        · exact absurd hclose hf
        · exact ⟨g, hg, hclose⟩

end Heard

open Lib (LittleEndian.bytes LittleEndian.value LittleEndian.length_bytes LittleEndian.value_bytes_of_lt)

section Loop

variable {s : Socket}

theorem readFrame_header {r : Rpc} (f : Frame) {tail : Bytes} (h : r.available = f.header ++ tail) :
    readFrame s r =
      treat s f.op (tail.take f.body.length) { r with available := tail.drop f.body.length } := by
  have hop : UInt32.ofNat (LittleEndian.value (LittleEndian.bytes 4 f.op.toNat)) = f.op := by
    rw [LittleEndian.value_bytes_of_lt f.op.toNat_lt, UInt32.ofNat_toNat]
  have hlen : LittleEndian.value (LittleEndian.bytes 4 f.body.length) = f.body.length :=
    LittleEndian.value_bytes_of_lt f.fits
  have htake : r.available.take 8 = f.header := by
    rw [h, List.take_append_of_le_length (by rw [length_header]),
      List.take_of_length_le (by rw [length_header])]
  have hdrop : r.available.drop 8 = tail := by
    rw [h, List.drop_append_of_le_length (by rw [length_header]),
      List.drop_of_length_le (by rw [length_header]), List.nil_append]
  have hfirst : f.header.take 4 = LittleEndian.bytes 4 f.op.toNat := by
    rw [Frame.header, List.take_left' (LittleEndian.length_bytes 4 _)]
  have hsecond : f.header.drop 4 = LittleEndian.bytes 4 f.body.length := by
    rw [Frame.header, List.drop_left' (LittleEndian.length_bytes 4 _)]
  rw [readFrame, htake, hdrop, hfirst, hsecond, hop, hlen]

theorem readFrames_header {r : Rpc} (f : Frame) {tail : Bytes} (h : r.available = f.header ++ tail)
    (fuel : Nat) :
    readFrames s (fuel + 1) r =
      readFrames s fuel
        (treat s f.op (tail.take f.body.length) { r with available := tail.drop f.body.length }) := by
  have hheader : 8 ≤ r.available.length := by
    rw [h, List.length_append, length_header]
    exact Nat.le_add_right 8 _
  rw [readFrames, if_pos hheader, readFrame_header f h]

theorem readFrames_stream {fs : List Frame} (hopen : ∀ f ∈ fs, f.op ≠ kOpClose) {r : Rpc}
    (hconnected : r.connected = true) {rest : Bytes} (h : r.available = stream fs ++ rest) (fuel : Nat) :
    readFrames s (fs.length + fuel) r =
      readFrames s fuel
        { r with
          available := rest
          handshaken := r.handshaken || !fs.isEmpty
          log := r.log ++ heard r.cachedActivity r.handshaken fs } := by
  induction fs generalizing r with
  | nil =>
      obtain ⟨available, connected, handshaken, cached, log⟩ := r
      dsimp only at h ⊢
      rw [List.length_nil, Nat.zero_add, h, List.isEmpty_nil, Bool.not_true, Bool.or_false, heard,
        List.append_nil]
      rfl
  | cons f fs ih =>
      obtain ⟨hf, hfs⟩ := List.forall_mem_cons.mp hopen
      have hlayout : r.available = f.header ++ (f.body ++ (stream fs ++ rest)) := by
        rw [h, stream_cons, Frame.encode, List.append_assoc, List.append_assoc]
      have hcount : (f :: fs).length + fuel = fs.length + fuel + 1 := by
        rw [List.length_cons]
        omega
      have htreat := treat_frame (s := s) (r := { r with available := stream fs ++ rest }) hconnected hf f.body
      rw [hcount, readFrames_header f hlayout, List.take_left, List.drop_left, htreat, heard, if_neg hf]
      apply (ih (r := { r with
        available := stream fs ++ rest
        handshaken := true
        log := r.log ++ .treated f.op f.body :: if r.handshaken then [] else replayed r.cachedActivity })
        hfs hconnected rfl).trans
      simp

theorem length_le_stream (fs : List Frame) : fs.length ≤ (stream fs).length := by
  induction fs with
  | nil => exact Nat.le_refl 0
  | cons f fs ih =>
      rw [stream_cons, List.length_append, length_encode, Frame.size, List.length_cons]
      omega

theorem deliver_stream {fs : List Frame} (hopen : ∀ f ∈ fs, f.op ≠ kOpClose) {r : Rpc}
    (hconnected : r.connected = true) {data rest : Bytes} (h : r.available ++ data = stream fs ++ rest) :
    ∃ fuel, rest.length ≤ fuel ∧
      deliver s r data =
        readFrames s fuel
          { r with
            available := rest
            handshaken := r.handshaken || !fs.isEmpty
            log := r.log ++ heard r.cachedActivity r.handshaken fs } := by
  have hlength : (r.available ++ data).length = (stream fs).length + rest.length := by
    rw [h, List.length_append]
  have hle := length_le_stream fs
  obtain ⟨fuel, hfuel⟩ := Nat.exists_eq_add_of_le (show fs.length ≤ (r.available ++ data).length by omega)
  refine ⟨fuel, by omega, ?_⟩
  rw [deliver, if_pos (Or.inl hconnected), onReadyRead]
  dsimp only
  rw [hfuel]
  exact readFrames_stream (r := { r with available := r.available ++ data }) hopen hconnected h fuel

theorem exists_first_close {fs : List Frame} (h : ∃ f ∈ fs, f.op = kOpClose) :
    ∃ before c after, fs = before ++ c :: after ∧ (∀ f ∈ before, f.op ≠ kOpClose) ∧ c.op = kOpClose := by
  induction fs with
  | nil => simp at h
  | cons f fs ih =>
      by_cases hf : f.op = kOpClose
      · exact ⟨[], f, fs, rfl, fun g hg => absurd hg List.not_mem_nil, hf⟩
      · obtain ⟨g, hg, hclose⟩ := h
        have hlater : ∃ g ∈ fs, g.op = kOpClose := by
          rcases List.mem_cons.mp hg with rfl | hg
          · exact absurd hclose hf
          · exact ⟨g, hg, hclose⟩
        obtain ⟨before, c, after, rfl, hbefore, hc⟩ := ih hlater
        exact ⟨f :: before, c, after, rfl, List.forall_mem_cons.mpr ⟨hf, hbefore⟩, hc⟩

end Loop

-- What the object holds while the connection is open and its first n bytes were delivered.
def standing (clientId : QString) (cachedActivity : Option Activity) (frames : List Frame) (n : Nat) : Rpc where
  available := begun frames n
  connected := true
  handshaken := !(arrived frames n).isEmpty
  cachedActivity := cachedActivity
  log := .sent kOpHandshake (.handshake clientId) :: heard cachedActivity false (arrived frames n)

structure Follows (clientId : QString) (cachedActivity : Option Activity) (frames : List Frame) (n : Nat)
    (r : Rpc) : Prop where
  log : r.log = .sent kOpHandshake (.handshake clientId) :: heard cachedActivity false (arrived frames n)
  closed : (∃ f ∈ arrived frames n, f.op = kOpClose) → r.connected = false
  stands : (∀ f ∈ arrived frames n, f.op ≠ kOpClose) → r = standing clientId cachedActivity frames n

section Delivered

variable {s : Socket} {clientId : QString} {cachedActivity : Option Activity} {frames : List Frame} {n n' : Nat}
  {r : Rpc} {data : Bytes} {more : List Frame}

theorem not_closed {fs : List Frame} (h : ¬ ∃ f ∈ fs, f.op = kOpClose) : ∀ f ∈ fs, f.op ≠ kOpClose :=
  fun f hf hclose => h ⟨f, hf, hclose⟩

theorem not_open {fs : List Frame} (h : ∃ f ∈ fs, f.op = kOpClose) : ¬ ∀ f ∈ fs, f.op ≠ kOpClose := by
  obtain ⟨f, hf, hclose⟩ := h
  exact fun hall => hall f hf hclose

theorem some_append (fs fs' : List Frame) : (!(fs ++ fs').isEmpty) = (!fs.isEmpty || !fs'.isEmpty) := by
  cases fs with
  | nil => rfl
  | cons f fs => rfl

theorem standing_deliver (clientId : QString) (cachedActivity : Option Activity)
    (hmore : arrived frames n' = arrived frames n ++ more)
    (hbytes : begun frames n ++ data = stream more ++ begun frames n')
    (hopen : ∀ f ∈ arrived frames n', f.op ≠ kOpClose) :
    ∃ fuel, (begun frames n').length ≤ fuel ∧
      deliver s (standing clientId cachedActivity frames n) data =
        readFrames s fuel (standing clientId cachedActivity frames n') := by
  rw [hmore] at hopen
  obtain ⟨hbefore, hnew⟩ := List.forall_mem_append.mp hopen
  obtain ⟨fuel, hfuel, heq⟩ :=
    deliver_stream (s := s) (r := standing clientId cachedActivity frames n) hnew rfl hbytes
  refine ⟨fuel, hfuel, heq.trans ?_⟩
  apply congrArg
  simp only [standing, hmore, heard_append hbefore, some_append, Bool.false_or, List.cons_append]

theorem follows_deliver (h : Follows clientId cachedActivity frames n r)
    (hmore : arrived frames n' = arrived frames n ++ more)
    (hbytes : begun frames n ++ data = stream more ++ begun frames n')
    (huncut : ¬ EndsInBody frames n') :
    Follows clientId cachedActivity frames n' (deliver s r data) := by
  by_cases hclosed : ∃ f ∈ arrived frames n, f.op = kOpClose
  · -- the connection is over, whatever is delivered still
    obtain ⟨hstill, hlog⟩ := deliver_closed (s := s) (h.closed hclosed) data
    have hafter : ∃ f ∈ arrived frames n', f.op = kOpClose := by
      obtain ⟨f, hf, hclose⟩ := hclosed
      exact ⟨f, by rw [hmore]; exact List.mem_append_left _ hf, hclose⟩
    refine ⟨?_, fun _ => hstill, fun hall => absurd hall (not_open hafter)⟩
    rw [hlog, h.log, hmore, heard_closed hclosed]
  · have hopen := not_closed hclosed
    rw [h.stands hopen]
    by_cases hclose : ∃ f ∈ more, f.op = kOpClose
    · -- the first close frame comes with this delivery
      obtain ⟨before, c, after, rfl, hbefore, hc⟩ := exists_first_close hclose
      have hlayout : begun frames n ++ data =
          stream before ++ (c.header ++ (c.body ++ (stream after ++ begun frames n'))) := by
        rw [hbytes, stream_append, stream_cons, Frame.encode]
        simp only [List.append_assoc]
      obtain ⟨fuel, hfuel, heq⟩ :=
        deliver_stream (s := s) (r := standing clientId cachedActivity frames n) hbefore rfl hlayout
      obtain ⟨fuel, rfl⟩ : ∃ k, fuel = k + 1 := by
        rw [List.length_append, length_header] at hfuel
        exact ⟨fuel - 1, by omega⟩
      rw [readFrames_header c rfl, List.take_left, List.drop_left, hc] at heq
      have hafter : ∃ f ∈ arrived frames n', f.op = kOpClose :=
        ⟨c, by rw [hmore]; exact List.mem_append_right _ (List.mem_append_right _ List.mem_cons_self), hc⟩
      obtain ⟨hover, hlog⟩ := treat_close (s := s) (r := { standing clientId cachedActivity frames n with
        available := stream after ++ begun frames n'
        handshaken := !(arrived frames n).isEmpty || !before.isEmpty
        log := (standing clientId cachedActivity frames n).log ++
          heard cachedActivity (!(arrived frames n).isEmpty) before }) rfl c.body
      obtain ⟨hstill, hsame⟩ := readFrames_closed (s := s) hover fuel
      refine ⟨?_, fun _ => ?_, fun hall => absurd hall (not_open hafter)⟩
      · rw [heq]
        apply (hsame.trans hlog).trans
        rw [hmore, heard_append hopen, heard_append hbefore, heard, if_pos hc, hc]
        simp [standing]
      · rw [heq]
        exact hstill
    · have hall : ∀ f ∈ arrived frames n', f.op ≠ kOpClose := by
        rw [hmore]
        exact List.forall_mem_append.mpr ⟨hopen, not_closed hclose⟩
      obtain ⟨fuel, _, heq⟩ :=
        standing_deliver clientId cachedActivity hmore hbytes hall
      have hshort : (standing clientId cachedActivity frames n').available.length < 8 := begun_short hall huncut
      rw [heq, readFrames_short hshort]
      exact ⟨rfl, fun hsome => absurd hall (not_open hsome), fun _ => rfl⟩

-- The frame whose body is cut is treated with what there is of the body.
theorem deliver_cut (h : Follows clientId cachedActivity frames n r)
    (hmore : arrived frames n' = arrived frames n ++ more)
    (hbytes : begun frames n ++ data = stream more ++ begun frames n')
    (hcut : EndsInBody frames n') :
    (standing clientId cachedActivity frames n').log.length < (deliver s r data).log.length := by
  obtain ⟨hall, f, cut, hbegun, hshort⟩ := begun_cut hcut
  have hopen : ∀ f ∈ arrived frames n, f.op ≠ kOpClose := by
    rw [hmore] at hall
    exact (List.forall_mem_append.mp hall).1
  obtain ⟨fuel, hfuel, heq⟩ :=
    standing_deliver clientId cachedActivity hmore hbytes hall
  obtain ⟨fuel, rfl⟩ : ∃ k, fuel = k + 1 := by
    rw [hbegun, List.length_append, length_header] at hfuel
    exact ⟨fuel - 1, by omega⟩
  rw [h.stands hopen, heq, readFrames_header f hbegun, List.take_of_length_le (Nat.le_of_lt hshort),
    List.drop_of_length_le (Nat.le_of_lt hshort)]
  generalize hr : ({ standing clientId cachedActivity frames n' with available := [] } : Rpc) = now
  have hconnected : now.connected = true := by rw [← hr]; rfl
  have hlog : (standing clientId cachedActivity frames n').log = now.log := by rw [← hr]
  rw [hlog]
  by_cases hf : f.op = kOpClose
  · obtain ⟨hover, hgrown⟩ := treat_close (s := s) hconnected cut
    rw [hf, (readFrames_closed (s := s) hover fuel).2, hgrown, List.length_append]
    exact Nat.lt_add_of_pos_right (Nat.succ_pos 1)
  · have hnothing : now.available = [] := by rw [← hr]
    have htreated := treat_frame (s := s) hconnected hf cut
    generalize treat s f.op cut now = after at htreated ⊢
    have hleft : after.available.length < 8 := by
      rw [htreated, hnothing]
      exact Nat.succ_pos 7
    rw [readFrames_short hleft, htreated, List.length_append]
    exact Nat.lt_add_of_pos_right (Nat.succ_pos _)

-- What a delivery adds to the bytes that were there.
theorem delivered_next {deliveries : List Bytes} (hcut : deliveries.flatten = stream frames) {k : Nat}
    (hk : k < deliveries.length) :
    ∃ more,
      arrived frames (deliveries.take (k + 1)).flatten.length =
        arrived frames (deliveries.take k).flatten.length ++ more ∧
      begun frames (deliveries.take k).flatten.length ++ deliveries[k] =
        stream more ++ begun frames (deliveries.take (k + 1)).flatten.length := by
  have hbefore : ∀ k, (stream frames).take (deliveries.take k).flatten.length =
      (deliveries.take k).flatten := by
    intro k
    rw [← hcut]
    conv_lhs => rw [← List.take_append_drop k deliveries, List.flatten_append, List.take_append_drop]
    exact List.take_left
  have hgrow : (deliveries.take (k + 1)).flatten = (deliveries.take k).flatten ++ deliveries[k] := by
    rw [List.take_succ_eq_append_getElem hk, List.flatten_append, List.flatten_singleton]
  have hle : (deliveries.take k).flatten.length ≤ (deliveries.take (k + 1)).flatten.length := by
    rw [hgrow, List.length_append]
    exact Nat.le_add_right _ _
  obtain ⟨more, hmore⟩ := arrived_mono frames hle
  refine ⟨more, hmore, ?_⟩
  have hnow := (hbefore k).symm.trans (take_stream frames _)
  have hthen := (hbefore (k + 1)).symm.trans (take_stream frames _)
  apply (List.append_right_inj (stream (arrived frames (deliveries.take k).flatten.length))).mp
  calc stream (arrived frames (deliveries.take k).flatten.length) ++
        (begun frames (deliveries.take k).flatten.length ++ deliveries[k])
      = (deliveries.take k).flatten ++ deliveries[k] := by rw [← List.append_assoc, ← hnow]
    _ = stream (arrived frames (deliveries.take k).flatten.length ++ more) ++
          begun frames (deliveries.take (k + 1)).flatten.length := by rw [← hgrow, ← hmore, ← hthen]
    _ = _ := by rw [stream_append, List.append_assoc]

theorem session_succ {deliveries : List Bytes} {k : Nat} (hk : k < deliveries.length) :
    session s clientId cachedActivity (deliveries.take (k + 1)) =
      deliver s (session s clientId cachedActivity (deliveries.take k)) deliveries[k] := by
  unfold session
  rw [List.take_succ_eq_append_getElem hk, List.foldl_append]
  rfl

theorem arrived_zero (frames : List Frame) :
    arrived frames 0 = [] ∧ begun frames 0 = [] ∧ ¬ EndsInBody frames 0 := by
  cases frames with
  | nil => exact ⟨rfl, rfl, fun h => h⟩
  | cons f fs =>
      have hsize : 0 < f.size := Nat.lt_of_lt_of_le (Nat.succ_pos 7) (Nat.le_add_right 8 _)
      rw [arrived, begun, EndsInBody, if_pos hsize, if_pos hsize, if_pos hsize]
      exact ⟨rfl, rfl, Nat.not_succ_le_zero 7⟩

theorem follows_start (frames : List Frame) :
    Follows clientId cachedActivity frames 0 (onConnected clientId cachedActivity) := by
  obtain ⟨harrived, hbegun, _⟩ := arrived_zero frames
  refine ⟨?_, ?_, fun _ => ?_⟩
  · rw [harrived]
    rfl
  · rw [harrived]
    rintro ⟨f, hf, _⟩
    exact absurd hf List.not_mem_nil
  · rw [standing, harrived, hbegun]
    rfl

theorem session_follows {deliveries : List Bytes} (hcut : deliveries.flatten = stream frames) (k : Nat)
    (huncut : ∀ j ≤ k, ¬ EndsInBody frames (deliveries.take j).flatten.length) :
    Follows clientId cachedActivity frames (deliveries.take k).flatten.length
      (session s clientId cachedActivity (deliveries.take k)) := by
  induction k with
  | zero => exact follows_start frames
  | succ k ih =>
      have hbefore := ih fun j hj => huncut j (Nat.le_succ_of_le hj)
      by_cases hk : k < deliveries.length
      · obtain ⟨more, hmore, hbytes⟩ := delivered_next hcut hk
        rw [session_succ hk]
        exact follows_deliver hbefore hmore hbytes (huncut (k + 1) (Nat.le_refl _))
      · rw [List.take_of_length_le (by omega)] at hbefore ⊢
        exact hbefore

end Delivered

-- The frames are read whole just when no delivery ends inside a body: the loop asks for the eight
-- bytes of a header only, and takes a body that is still to come as it is.
theorem reads_whole_iff (s : Socket) (clientId : QString) (cachedActivity : Option Activity)
    (frames : List Frame) (deliveries : List Bytes) (hcut : deliveries.flatten = stream frames) :
    ReadsWhole s clientId cachedActivity frames deliveries ↔ BodiesUncut frames deliveries := by
  constructor
  · intro hwhole k
    induction k using Nat.strong_induction_on with
    | _ k ih =>
      cases k with
      | zero => exact (arrived_zero frames).2.2
      | succ k =>
          intro hbody
          have hbefore : Follows clientId cachedActivity frames _ (session s clientId cachedActivity _) :=
            session_follows hcut k fun j hj => ih j (Nat.lt_succ_of_le hj)
          by_cases hk : k < deliveries.length
          · obtain ⟨more, hmore, hbytes⟩ := delivered_next hcut hk
            have hlonger := deliver_cut (s := s) hbefore hmore hbytes hbody
            rw [← session_succ hk, hwhole (k + 1)] at hlonger
            exact Nat.lt_irrefl _ hlonger
          · rw [List.take_of_length_le (by omega)] at hbody
            have hlast := ih k (Nat.lt_succ_self k)
            rw [List.take_of_length_le (by omega)] at hlast
            exact hlast hbody
  · intro huncut k
    exact (session_follows hcut k fun j _ => huncut j).log

def ready : Frame where
  op := kOpFrame
  body := [0x7b, 0x22, 0x65, 0x76, 0x74, 0x22, 0x3a, 0x22, 0x52, 0x45, 0x41, 0x44, 0x59, 0x22, 0x7d]
  fits := by decide

def goodbye : Frame where
  op := kOpClose
  body := [0x7b, 0x7d]
  fits := by decide

theorem reads_whole_framed :
    ReadsWhole ⟨true, false, true⟩ [] none [ready, goodbye] [ready.encode, goodbye.encode] := by
  apply (reads_whole_iff _ _ _ [ready, goodbye] [ready.encode, goodbye.encode] (by decide)).mpr
  intro k
  match k with
  | 0 => decide
  | 1 => decide
  | k + 2 => rw [List.take_of_length_le (by simp)]; decide

-- READY cut past its header: the close frame behind it is taken for a part of a body.
theorem loses_close :
    [ready.header, ready.body ++ goodbye.encode].flatten = stream [ready, goodbye] ∧
      .disconnected ∉ (session ⟨true, false, true⟩ [] none [ready.header, ready.body ++ goodbye.encode]).log ∧
      ¬ ReadsWhole ⟨true, false, true⟩ [] none [ready, goodbye]
        [ready.header, ready.body ++ goodbye.encode] := by
  refine ⟨by decide, by decide, fun h => ?_⟩
  exact absurd (h 2) (by decide)

end BATorrent.DiscordRpc
