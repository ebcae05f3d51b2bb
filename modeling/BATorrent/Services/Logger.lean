import BATorrent.Lib.DataStream
import BATorrent.Lib.Run
import Mathlib.Data.List.Flatten
import Mathlib.Data.List.Sort
import Mathlib.Logic.Function.Basic

namespace BATorrent.Logger

open Lib
open Lib.DataStream (Bytes)

section Model

def keepRotations : Nat := 3

-- The one process that rotates; the others are its children.
def app : Nat := 0

structure Line where
  process : Nat
  text : Bytes
deriving DecidableEq

-- A file outlives its name while a process has it open, so that files go by number. Name 0 is
-- `batorrent.log`, name `i` is `batorrent.log.i`.
structure Disk where
  next : Nat
  content : Nat → List Line
  named : Nat → Option Nat

def Disk.size (d : Disk) (f : Nat) : Nat := ((d.content f).map fun line => line.text.length).sum

-- What a process asks of the system, one call at a time.
inductive Call where
  | close
  | openLog
  | rotateIfNeeded
  | lookForRotation
  | remove (i : Nat)
  | rename (i : Nat)
  | writeLine (text : Bytes)
deriving DecidableEq

structure Process where
  started : Bool
  file : Option Nat
  pending : List Call

structure State where
  disk : Disk
  processes : Nat → Process

def State.set (s : State) (p : Nat) (process : Process) : State :=
  { s with processes := Function.update s.processes p process }

def Disk.create (d : Disk) : Disk :=
  ⟨d.next + 1, Function.update d.content d.next [], Function.update d.named 0 (some d.next)⟩

def Disk.remove (d : Disk) (i : Nat) : Disk := { d with named := Function.update d.named i none }

-- Not onto a name that is taken.
def Disk.rename (d : Disk) (i : Nat) : Disk :=
  if d.named (i + 1) = none then
    { d with named := Function.update (Function.update d.named (i + 1) (d.named i)) i none }
  else d

def Disk.append (d : Disk) (f : Nat) (line : Line) : Disk :=
  { d with content := Function.update d.content f (d.content f ++ [line]) }

-- `.2` goes to `.3` and `.1` to `.2`, then the current one to `.1`.
def rotation : List Call :=
  .close :: ((List.range' 1 (keepRotations - 1)).reverse.flatMap fun i => [.remove (i + 1), .rename i]) ++
    [.rename 0, .openLog]

-- The file at the path is another one when it is shorter.
def moved (d : Disk) (file : Option Nat) : Bool :=
  match d.named 0, file with
  | none, _ => true
  | some _, none => false
  | some f, some g => d.size f < d.size g

-- `maxBytes` is 5 MB.
def perform (maxBytes : Nat) (s : State) (p : Nat) (call : Call) (rest : List Call) : State × List Line :=
  let process := { s.processes p with pending := rest }
  match call with
  | .close => (s.set p { process with file := none }, [])
  | .openLog =>
      match s.disk.named 0 with
      | some f => (s.set p { process with file := some f }, [])
      | none => ({ s with disk := s.disk.create }.set p { process with file := some s.disk.next }, [])
  | .rotateIfNeeded =>
      match process.file with
      | none => (s.set p process, [])
      | some f => (s.set p { process with pending := if s.disk.size f < maxBytes then rest else rotation ++ rest }, [])
  | .lookForRotation =>
      (s.set p { process with pending := if moved s.disk process.file then .openLog :: rest else rest }, [])
  | .remove i => ({ s with disk := s.disk.remove i }.set p process, [])
  | .rename i => ({ s with disk := s.disk.rename i }.set p process, [])
  | .writeLine text =>
      match process.file with
      | none => (s.set p process, [])
      | some f => ({ s with disk := s.disk.append f ⟨p, text⟩ }.set p process, [⟨p, text⟩])

inductive Event where
  | init (p : Nat) (markers : List Bytes)
  | log (p : Nat) (due : Bool) (text : Bytes)
  | clear (text : Bytes)
  | close (text : Bytes)
  | killed (p : Nat)
  | call (p : Nat)
deriving DecidableEq

def logCalls (p : Nat) (due : Bool) (text : Bytes) : List Call :=
  (if p = app then [.rotateIfNeeded] else if due then [.lookForRotation] else []) ++ [.writeLine text]

-- The calls of one record go out under the process's own lock.
def idle (s : State) (p : Nat) : Bool := (s.processes p).started && (s.processes p).pending.isEmpty

def ask (s : State) (p : Nat) (calls : List Call) : Option (State × List Line) :=
  if idle s p then some (s.set p { s.processes p with pending := calls }, []) else none

def next (maxBytes : Nat) (s : State) : Event → Option (State × List Line)
  | .init p markers =>
      if (s.processes p).started then none
      else some (s.set p ⟨true, none, .openLog :: (if p = app then markers.map .writeLine else [])⟩, [])
  | .log p due text => ask s p (logCalls p due text)
  | .clear text => ask s app [.close, .remove 0, .openLog, .writeLine text]
  | .close text => ask s app [.writeLine text]
  | .killed p => some (s.set p ⟨false, none, []⟩, [])
  | .call p =>
      match (s.processes p).pending with
      | [] => none
      | call :: rest => some (perform maxBytes s p call rest)

def machine (maxBytes : Nat) : Machine State Event Line where
  init := ⟨⟨0, fun _ => [], fun _ => none⟩, fun _ => ⟨false, none, []⟩⟩
  next := next maxBytes

-- The oldest first, the current one last.
def readAllLogs (d : Disk) : List Line :=
  ((List.range (keepRotations + 1)).reverse.filterMap d.named).flatMap d.content

-- What a process has written, in the order it has.
def written (p : Nat) (past : List (Reaction State Event Line)) : List Line :=
  (Machine.log past).reverse.filter (·.process = p)

end Model

section Order

variable {d : Disk} {f i j : Nat}

-- A lower name is a newer file, and the newest of all has the path.
structure Ordered (d : Disk) : Prop where
  newest : ∀ f, d.named 0 = some f → f + 1 = d.next
  order : ∀ i j f g, i < j → d.named i = some f → d.named j = some g → g < f
  below : ∀ i f, d.named i = some f → f < d.next
  blank : ∀ f, d.next ≤ f → d.content f = []

theorem named_create (hf : d.create.named i = some f) : i = 0 ∧ f = d.next ∨ i ≠ 0 ∧ d.named i = some f := by
  dsimp only [Disk.create] at hf
  by_cases hi : i = 0
  · rw [hi, Function.update_self] at hf
    exact .inl ⟨hi, (Option.some.inj hf).symm⟩
  · rw [Function.update_of_ne hi] at hf
    exact .inr ⟨hi, hf⟩

theorem Ordered.create (h : Ordered d) : Ordered d.create := by
  refine ⟨fun f hf => ?_, fun i j f g hij hf hg => ?_, fun i f hf => ?_, fun f hf => ?_⟩
  · rcases named_create hf with ⟨-, rfl⟩ | ⟨hne, -⟩
    · rfl
    · exact absurd rfl hne
  · rcases named_create hg with ⟨rfl, -⟩ | ⟨-, hg⟩
    · exact absurd hij (Nat.not_lt_zero i)
    · rcases named_create hf with ⟨-, rfl⟩ | ⟨-, hf⟩
      · exact h.below j g hg
      · exact h.order i j f g hij hf hg
  · rcases named_create hf with ⟨-, rfl⟩ | ⟨-, hf⟩
    · exact Nat.lt_succ_self _
    · exact (h.below i f hf).trans (Nat.lt_succ_self _)
  · have hne : f ≠ d.next := by
      have : d.next + 1 ≤ f := hf
      omega
    exact (Function.update_of_ne hne ..).trans (h.blank f (Nat.le_of_succ_le hf))

theorem named_remove (hf : (d.remove i).named j = some f) : j ≠ i ∧ d.named j = some f := by
  dsimp only [Disk.remove] at hf
  by_cases hj : j = i
  · rw [hj, Function.update_self] at hf
    cases hf
  · rw [Function.update_of_ne hj] at hf
    exact ⟨hj, hf⟩

theorem Ordered.remove (h : Ordered d) (i : Nat) : Ordered (d.remove i) :=
  ⟨fun f hf => h.newest f (named_remove hf).2,
    fun i j f g hij hf hg => h.order i j f g hij (named_remove hf).2 (named_remove hg).2,
    fun i f hf => h.below i f (named_remove hf).2, h.blank⟩

-- A file that has a name after a rename had one before, the same or the one below.
theorem named_rename (hf : (d.rename i).named j = some f) :
    d.named j = some f ∧ (j = i → d.named (i + 1) ≠ none) ∨
      j = i + 1 ∧ d.named i = some f ∧ d.named (i + 1) = none := by
  rw [Disk.rename] at hf
  split at hf
  next hfree =>
    dsimp only at hf
    by_cases hi : j = i
    · rw [hi, Function.update_self] at hf
      cases hf
    · rw [Function.update_of_ne hi] at hf
      by_cases hj : j = i + 1
      · subst hj
        rw [Function.update_self] at hf
        exact .inr ⟨rfl, hf, hfree⟩
      · rw [Function.update_of_ne hj] at hf
        exact .inl ⟨hf, fun heq => absurd heq hi⟩
  next htaken => exact .inl ⟨hf, fun _ => htaken⟩

theorem rename_kept (d : Disk) (i : Nat) : (d.rename i).next = d.next ∧ (d.rename i).content = d.content := by
  rw [Disk.rename]
  split <;> exact ⟨rfl, rfl⟩

theorem Ordered.rename (h : Ordered d) (i : Nat) : Ordered (d.rename i) := by
  have hnext := rename_kept d i
  refine ⟨fun f hf => ?_, fun j k f g hjk hf hg => ?_, fun j f hf => ?_, fun f hf => ?_⟩
  · rw [hnext.1]
    rcases named_rename hf with ⟨hf, -⟩ | ⟨h0, -⟩
    · exact h.newest f hf
    · omega
  · rcases named_rename hf with ⟨hf, hfi⟩ | ⟨rfl, hf, hfree⟩ <;> rcases named_rename hg with ⟨hg, hgi⟩ | ⟨rfl, hg, hfree'⟩
    · exact h.order j k f g hjk hf hg
    · refine h.order j i f g ?_ hf hg
      have hne : j ≠ i := fun heq => hfi heq hfree'
      omega
    · exact h.order i k f g (by omega) hf hg
    · omega
  · rw [hnext.1]
    rcases named_rename hf with ⟨hf, -⟩ | ⟨-, hf, -⟩
    · exact h.below _ _ hf
    · exact h.below _ _ hf
  · rw [hnext.2]
    exact h.blank f (hnext.1 ▸ hf)

theorem Ordered.append (h : Ordered d) (hf : f < d.next) (line : Line) : Ordered (d.append f line) :=
  ⟨h.newest, h.order, h.below, fun g hg => by
    have hg : d.next ≤ g := hg
    exact (Function.update_of_ne (by omega) ..).trans (h.blank g hg)⟩

end Order

section Writers

variable {maxBytes : Nat} {past : List (Reaction State Event Line)} {s s' : State} {p : Nat}

-- The lines of a process go to one file after the other, never back to an older one.
structure Inv (past : List (Reaction State Event Line)) (s : State) : Prop where
  ordered : Ordered s.disk
  file : ∀ p f, (s.processes p).file = some f → f < s.disk.next
  lines : ∀ p, written p past = ((List.range s.disk.next).flatMap s.disk.content).filter (·.process = p)
  ahead : ∀ p f g, (s.processes p).file = some f → f < g → ∀ line ∈ s.disk.content g, line.process ≠ p

theorem written_line (p : Nat) (s : State) (e : Event) (line : Line) :
    written p (⟨s, e, [line]⟩ :: past) = written p past ++ [line].filter (·.process = p) := by
  have hlog : Machine.log (⟨s, e, [line]⟩ :: past) = line :: Machine.log past := rfl
  rw [written, hlog, List.reverse_cons, List.filter_append]
  rfl

theorem inv_init : Inv [] (machine maxBytes).init where
  ordered := ⟨(by simp [machine]), (by simp [machine]), (by simp [machine]), fun _ _ => rfl⟩
  file _ _ h := by cases h
  lines _ := rfl
  ahead _ _ _ h := by cases h

theorem Inv.silent (h : Inv past s) (before : State) (e : Event) : Inv (⟨before, e, []⟩ :: past) s :=
  ⟨h.ordered, h.file, h.lines, h.ahead⟩

-- A process may keep its file, close it, or go on with the newest.
theorem Inv.set (h : Inv past s) {process : Process}
    (hfile : ∀ f, process.file = some f → (s.processes p).file = some f ∨ f + 1 = s.disk.next) :
    Inv past (s.set p process) := by
  have hprocess (q f : Nat) (hf : ((s.set p process).processes q).file = some f) :
      (s.processes q).file = some f ∨ f + 1 = s.disk.next := by
    dsimp only [State.set] at hf
    by_cases hq : q = p
    · subst hq
      rw [Function.update_self] at hf
      exact hfile f hf
    · rw [Function.update_of_ne hq] at hf
      exact .inl hf
  refine ⟨h.ordered, fun q f hf => ?_, fun q => h.lines q, fun q f g hf hfg line hline => ?_⟩
  · rcases hprocess q f hf with hf | hf
    · exact h.file q f hf
    · exact Nat.lt_of_succ_le hf.le
  · rcases hprocess q f hf with hf | hf
    · exact h.ahead q f g hf hfg line hline
    · have hblank : s.disk.content g = [] := h.ordered.blank g (by omega)
      change line ∈ s.disk.content g at hline
      rw [hblank] at hline
      cases hline

theorem Inv.names (h : Inv past s) {d : Disk} (hordered : Ordered d) (hnext : d.next = s.disk.next)
    (hcontent : d.content = s.disk.content) : Inv past { s with disk := d } := by
  refine ⟨hordered, fun q f hf => hnext ▸ h.file q f hf, fun q => ?_, fun q f g hf hfg line hline => ?_⟩
  · dsimp only
    rw [hnext, hcontent]
    exact h.lines q
  · dsimp only at hline
    rw [hcontent] at hline
    exact h.ahead q f g hf hfg line hline

theorem Inv.create (h : Inv past s) : Inv past { s with disk := s.disk.create } := by
  have hcontent : s.disk.create.content = s.disk.content := by
    dsimp only [Disk.create]
    rw [← h.ordered.blank s.disk.next (Nat.le_refl _), Function.update_eq_self]
  refine ⟨h.ordered.create, fun q f hf => (h.file q f hf).trans (Nat.lt_succ_self _), fun q => ?_,
    fun q f g hf hfg line hline => ?_⟩
  · have hblank := h.ordered.blank s.disk.next (Nat.le_refl _)
    dsimp only
    rw [hcontent, h.lines q]
    change _ = ((List.range (s.disk.next + 1)).flatMap s.disk.content).filter (·.process = q)
    rw [List.range_succ, List.flatMap_append, List.flatMap_singleton, hblank, List.append_nil]
  · dsimp only at hline
    rw [hcontent] at hline
    exact h.ahead q f g hf hfg line hline

-- What goes to the end of a file is last of all where the files after it have none.
theorem flatMap_update {α : Type} {content : Nat → List α} {n f : Nat} {keep : α → Bool} (line : α) (hf : f < n)
    (hlater : ∀ g, f < g → g < n → (content g).filter keep = []) :
    ((List.range n).flatMap (Function.update content f (content f ++ [line]))).filter keep =
      ((List.range n).flatMap content).filter keep ++ [line].filter keep := by
  induction n with
  | zero => omega
  | succ n ih =>
      rw [List.range_succ, List.flatMap_append, List.flatMap_append, List.flatMap_singleton, List.flatMap_singleton,
        List.filter_append, List.filter_append]
      by_cases hn : f = n
      · subst hn
        have hearlier : (List.range f).flatMap (Function.update content f (content f ++ [line])) =
            (List.range f).flatMap content := by
          refine List.flatMap_congr fun g hg => ?_
          have hne : g ≠ f := (List.mem_range.mp hg).ne
          rw [Function.update_of_ne hne]
        rw [hearlier, Function.update_self, List.filter_append, List.append_assoc]
      · have hlt : f < n := by omega
        rw [ih hlt fun g hg hgn => hlater g hg (by omega), Function.update_of_ne (Ne.symm hn),
          hlater n hlt (Nat.lt_succ_self n), List.append_nil, List.append_nil]

theorem Inv.append (h : Inv past s) {f : Nat} (hf : (s.processes p).file = some f) (text : Bytes) (before : State)
    (e : Event) : Inv (⟨before, e, [⟨p, text⟩]⟩ :: past) { s with disk := s.disk.append f ⟨p, text⟩ } := by
  have hlt := h.file p f hf
  refine ⟨h.ordered.append hlt _, h.file, fun q => ?_, fun q g k hg hgk line hline => ?_⟩
  · rw [written_line, h.lines q]
    by_cases hq : p = q
    · subst hq
      refine (flatMap_update _ hlt fun g hg _ => ?_).symm
      exact List.filter_eq_nil_iff.mpr fun line hline => by simpa using h.ahead p f g hf hg line hline
    · have hline : [(⟨p, text⟩ : Line)].filter (·.process = q) = [] := by simp [hq]
      rw [hline, List.append_nil, List.filter_flatMap, List.filter_flatMap]
      refine List.flatMap_congr fun k _ => ?_
      dsimp only [Disk.append]
      by_cases hk : k = f
      · rw [hk, Function.update_self, List.filter_append, hline, List.append_nil]
      · rw [Function.update_of_ne hk]
  · dsimp only [Disk.append] at hline
    by_cases hk : k = f
    · subst hk
      rw [Function.update_self, List.mem_append, List.mem_singleton] at hline
      rcases hline with hline | rfl
      · exact h.ahead q g k hg hgk line hline
      · rintro rfl
        rw [hf] at hg
        exact absurd (Option.some.inj hg) hgk.ne'
    · rw [Function.update_of_ne hk] at hline
      exact h.ahead q g k hg hgk line hline

theorem Inv.ask {calls : List Call} {e : Event} {out : List Line} (h : Inv past s)
    (hask : ask s p calls = some (s', out)) : Inv (⟨s, e, out⟩ :: past) s' := by
  rw [Logger.ask] at hask
  split at hask
  · obtain ⟨rfl, rfl⟩ := Prod.mk.inj (Option.some.inj hask)
    refine Inv.silent (Inv.set h ?_) ..
    exact fun f hf => .inl hf
  · cases hask

theorem Inv.perform (h : Inv past s) (p : Nat) (call : Call) (rest : List Call) (e : Event) :
    Inv (⟨s, e, (perform maxBytes s p call rest).2⟩ :: past) (perform maxBytes s p call rest).1 := by
  cases call with
  | close =>
      refine Inv.silent (Inv.set h ?_) ..
      exact fun f hf => by cases hf
  | openLog =>
      cases hpath : s.disk.named 0 with
      | none =>
          simp only [Logger.perform, hpath]
          refine Inv.silent (Inv.set h.create ?_) ..
          exact fun f hf => .inr (congrArg (· + 1) (Option.some.inj hf).symm)
      | some f =>
          simp only [Logger.perform, hpath]
          refine Inv.silent (Inv.set h ?_) ..
          exact fun g hg => .inr (h.ordered.newest g (hpath.trans hg))
  | rotateIfNeeded =>
      cases hfile : (s.processes p).file with
      | none =>
          simp only [Logger.perform, hfile]
          refine Inv.silent (Inv.set h ?_) ..
          exact fun f hf => .inl (hfile.trans hf)
      | some f =>
          simp only [Logger.perform, hfile]
          refine Inv.silent (Inv.set h ?_) ..
          exact fun g hg => .inl (hfile.trans hg)
  | lookForRotation =>
      refine Inv.silent (Inv.set h ?_) ..
      exact fun f hf => .inl hf
  | remove i =>
      refine Inv.silent (Inv.set (h.names (h.ordered.remove i) rfl rfl) ?_) ..
      exact fun f hf => .inl hf
  | rename i =>
      refine Inv.silent (Inv.set (h.names (h.ordered.rename i) (rename_kept _ _).1 (rename_kept _ _).2) ?_) ..
      exact fun f hf => .inl hf
  | writeLine text =>
      cases hfile : (s.processes p).file with
      | none =>
          simp only [Logger.perform, hfile]
          refine Inv.silent (Inv.set h ?_) ..
          exact fun f hf => .inl (hfile.trans hf)
      | some f =>
          simp only [Logger.perform, hfile]
          refine Inv.set (h.append hfile text s e) ?_
          exact fun g hg => .inl (hfile.trans hg)

theorem Inv.next {e : Event} {out : List Line} (h : Inv past s) (hnext : next maxBytes s e = some (s', out)) :
    Inv (⟨s, e, out⟩ :: past) s' := by
  cases e with
  | init p markers =>
      rw [Logger.next] at hnext
      split at hnext
      · cases hnext
      · obtain ⟨rfl, rfl⟩ := Prod.mk.inj (Option.some.inj hnext)
        refine Inv.silent (Inv.set h ?_) ..
        exact fun f hf => by cases hf
  | log p due text => exact h.ask hnext
  | clear text => exact h.ask hnext
  | close text => exact h.ask hnext
  | killed p =>
      obtain ⟨rfl, rfl⟩ := Prod.mk.inj (Option.some.inj hnext)
      refine Inv.silent (Inv.set h ?_) ..
      exact fun f hf => by cases hf
  | call p =>
      rw [Logger.next] at hnext
      cases hpending : (s.processes p).pending with
      | nil => simp [hpending] at hnext
      | cons call rest =>
          rw [hpending] at hnext
          obtain ⟨rfl, rfl⟩ := Prod.mk.inj (Option.some.inj hnext)
          exact h.perform p call rest _

theorem inv_run {guard : State → Event → Prop} (hrun : (machine maxBytes).Run guard past s) : Inv past s :=
  hrun.invariant_past Inv inv_init fun _ _ _ _ _ hinv _ hnext => hinv.next hnext

end Writers

section Reading

variable {maxBytes : Nat} {d : Disk}

def shown (d : Disk) (f : Nat) : Bool := (List.range (keepRotations + 1)).any fun i => d.named i = some f

theorem shown_iff {f : Nat} : shown d f ↔ ∃ i ≤ keepRotations, d.named i = some f := by
  simp [shown, Nat.lt_succ_iff]

-- The files are read from the oldest to the newest.
theorem filterMap_named (h : Ordered d) :
    (List.range (keepRotations + 1)).reverse.filterMap d.named = (List.range d.next).filter (shown d) := by
  apply List.Pairwise.eq_of_mem_iff (r := (· < ·))
  · rw [List.pairwise_filterMap, List.pairwise_reverse]
    exact List.pairwise_lt_range.imp fun hij f hf g hg => h.order _ _ _ _ hij hg hf
  · exact List.pairwise_lt_range.filter _
  · intro f
    rw [List.mem_filterMap, List.mem_filter, List.mem_range, shown_iff]
    constructor
    · rintro ⟨i, hi, hf⟩
      exact ⟨h.below i f hf, i, Nat.le_of_lt_succ (List.mem_range.mp (List.mem_reverse.mp hi)), hf⟩
    · rintro ⟨-, i, hi, hf⟩
      exact ⟨i, List.mem_reverse.mpr (List.mem_range.mpr (Nat.lt_succ_of_le hi)), hf⟩

theorem filter_range_suffix {n : Nat} {keep : Nat → Bool} (h : ∀ f g, keep f → f ≤ g → g < n → keep g) :
    (List.range n).filter keep <:+ List.range n := by
  induction n with
  | zero => exact List.suffix_refl _
  | succ n ih =>
      rw [List.range_succ, List.filter_append]
      cases hn : keep n with
      | true =>
          rw [List.filter_cons_of_pos hn]
          obtain ⟨front, hfront⟩ := ih fun f g hf hfg hg => h f g hf hfg (by omega)
          exact ⟨front, by rw [← List.append_assoc, hfront]; rfl⟩
      | false =>
          have hnone : (List.range n).filter keep = [] := by
            refine List.filter_eq_nil_iff.mpr fun f hf hkeep => ?_
            rw [h f n hkeep (List.mem_range.mp hf).le (Nat.lt_succ_self n)] at hn
            cases hn
          rw [hnone, List.filter_cons_of_neg (by simp [hn])]
          exact List.nil_suffix

variable {past : List (Reaction State Event Line)} {s : State}

-- However the processes take turns, what is read of one of them is in the order it was written.
theorem readAllLogs_sublist (hrun : (machine maxBytes).Run (fun _ _ => True) past s) (p : Nat) :
    ((readAllLogs s.disk).filter (·.process = p)).Sublist (written p past) := by
  have hinv := inv_run hrun
  rw [hinv.lines p, readAllLogs, filterMap_named hinv.ordered]
  exact (List.filter_sublist.flatMap _).filter _

-- The app opens the log and clears it before its child, which has it open, looks again.
def clearedUnder : List Event :=
  [.init app [[1]], .call app, .call app, .init 1 [], .call 1, .clear [2], .call app, .call app, .call app, .call app,
    .log 1 true [3], .call 1, .call 1]

theorem readAllLogs_sublist_cleared : ∃ past s, (machine 100).Run (fun _ _ => True) past s ∧
    (written 1 past = [⟨1, [3]⟩] ∧ readAllLogs s.disk = [⟨0, [2]⟩]) ∧
    ((readAllLogs s.disk).filter (·.process = 1)).Sublist (written 1 past) := by
  have hreach : ∃ past s, (machine 100).Run (fun _ _ => True) past s ∧
      (((Machine.log past).reverse.filter (·.process = 1) = [⟨1, [3]⟩]) ∧ readAllLogs s.disk = [⟨0, [2]⟩]) :=
    Machine.exists_run_log (P := fun r : State × List Line =>
      r.2.reverse.filter (·.process = 1) = [⟨1, [3]⟩] ∧ readAllLogs r.1.disk = [⟨0, [2]⟩]) clearedUnder (by decide)
  obtain ⟨past, s, hrun, hlog, hread⟩ := hreach
  exact ⟨past, s, hrun, ⟨hlog, hread⟩, readAllLogs_sublist hrun 1⟩

end Reading

end BATorrent.Logger
