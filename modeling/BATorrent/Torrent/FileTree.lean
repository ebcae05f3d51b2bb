import Mathlib.Data.List.AList
import BATorrent.Lib.PathForest

namespace BATorrent.FileTree

abbrev Text := List Char

structure FileTreeRow where
  name : Text
  depth : Nat
  isDir : Bool
  fileIndex : Int
deriving DecidableEq

structure Node where
  name : Text
  isDir : Bool
  fileIndex : Int
  -- Positions in one list of nodes.
  children : List Nat

-- The nodes, the first of them the root, and where the folder of each full path is.
structure Building where
  nodes : List Node
  dirIndex : AList fun _ : Text => Nat

namespace Building

def start : Building := ⟨[⟨[], true, -1, []⟩], ∅⟩

-- A node put last, as a child of `cur`.
def append (b : Building) (cur : Nat) (n : Node) : List Node :=
  (b.nodes ++ [n]).modify cur fun node => { node with children := node.children ++ [b.nodes.length] }

-- One turn of the loop over the folders of a path: where it is, and the full path to there.
def enter (walk : Building × Nat × Text) (seg : Text) : Building × Nat × Text :=
  let (b, cur, full) := walk
  let full := full ++ '/' :: seg
  match b.dirIndex.lookup full with
  | some dir => (b, dir, full)
  | none =>
      let added := b.nodes.length
      (⟨b.append cur ⟨seg, true, -1, []⟩, b.dirIndex.insert full added⟩, added, full)

def addFile (b : Building) (segs : List Text) (last : Text) (i : Nat) : Building :=
  let (b, cur, _) := segs.foldl enter (b, 0, [])
  { b with nodes := b.append cur ⟨last, false, i, []⟩ }

end Building

def segments (path : Text) : List Text := (path.splitOn '/').filter (· ≠ [])

def addPath (b : Building) (path : Text × Nat) : Building :=
  match (segments path.1).getLast? with
  | none => b
  | some last => b.addFile (segments path.1).dropLast last path.2

-- `fuel` bounds how deep it goes.
def emitRows (nodes : List Node) : Nat → Nat → Nat → List FileTreeRow
  | 0, _, _ => []
  | fuel + 1, self, depth =>
      match nodes[self]? with
      | none => []
      | some node => node.children.flatMap fun c =>
          match nodes[c]? with
          | none => []
          | some n => ⟨n.name, depth, n.isDir, n.fileIndex⟩ ::
              if n.isDir then emitRows nodes fuel c (depth + 1) else []

def build (paths : List Text) : Building := paths.zipIdx.foldl addPath .start

-- No branch is deeper than there are nodes.
def buildFileTree (paths : List Text) : List FileTreeRow :=
  let nodes := (build paths).nodes
  emitRows nodes nodes.length 0 0

end BATorrent.FileTree

namespace BATorrent.FileTree

open Lib.PathForest

abbrev Plain (p : List Text) : Prop := ∀ s ∈ p, '/' ∉ s

-- The key of a folder in the index.
def fullOf (p : List Text) : Text := p.flatMap ('/' :: ·)

def head (n : Node) : Text × Bool × Int := (n.name, n.isDir, n.fileIndex)

def headOf (kid : Text × Option Nat) : Text × Bool × Int := (kid.1, kid.2.isNone, kid.2.elim (-1) (↑·))

section Keys

variable {p q : List Text} {s : Text}

theorem fullOf_snoc (p : List Text) (s : Text) : fullOf (p ++ [s]) = fullOf p ++ '/' :: s := by
  rw [fullOf, List.flatMap_append, List.flatMap_singleton]
  rfl

theorem splitOn_fullOf (hs : '/' ∉ s) (hp : Plain p) : (s ++ fullOf p).splitOn '/' = s :: p := by
  induction p generalizing s with
  | nil => exact (congrArg _ (List.append_nil s)).trans (List.splitOn_eq_singleton hs)
  | cons t p ih =>
      rw [fullOf, List.flatMap_cons, List.cons_append, List.splitOn_append_cons_self_of_not_mem hs]
      exact congrArg (s :: ·) (ih (hp t List.mem_cons_self) fun a ha => hp a (List.mem_cons_of_mem t ha))

theorem fullOf_injective (hp : Plain p) (hq : Plain q) (heq : fullOf p = fullOf q) : p = q := by
  have hp' := splitOn_fullOf (s := []) List.not_mem_nil hp
  have hq' := splitOn_fullOf (s := []) List.not_mem_nil hq
  rw [heq, hq'] at hp'
  exact (List.cons.inj hp').2.symm

theorem plain_append : Plain (p ++ q) ↔ Plain p ∧ Plain q := List.forall_mem_append

theorem not_mem_of_mem_splitOn {path : Text} (hs : s ∈ path.splitOn '/') : '/' ∉ s := by
  induction path generalizing s with
  | nil =>
      rw [List.mem_singleton.mp hs]
      exact List.not_mem_nil
  | cons c path ih =>
      rw [List.splitOn_cons_eq_if_modifyHead] at hs
      split_ifs at hs with hc
      · rcases List.mem_cons.mp hs with rfl | hs
        · exact List.not_mem_nil
        · exact ih hs
      · cases hsplit : path.splitOn '/' with
        | nil => exact absurd hsplit (List.splitOn_ne_nil '/' path)
        | cons a rest =>
            rw [hsplit] at hs ih
            rcases List.mem_cons.mp hs with rfl | hs
            · intro hmem
              rcases List.mem_cons.mp hmem with heq | hmem
              · exact hc (beq_iff_eq.mpr heq.symm)
              · exact ih List.mem_cons_self hmem
            · exact ih (List.mem_cons_of_mem a hs)

theorem plain_segments (path : Text) : Plain (segments path) := fun _ hs =>
  not_mem_of_mem_splitOn (List.mem_of_mem_filter hs)

end Keys

namespace Building

def dirAt (b : Building) (p : List Text) : Option Nat := if p = [] then some 0 else b.dirIndex.lookup (fullOf p)

def Shows (b : Building) (p : List Text) (child : Nat) (kid : Text × Option Nat) : Prop :=
  '/' ∉ kid.1 ∧ (b.nodes[child]?).map head = some (headOf kid) ∧
    (kid.2 = none → b.dirAt (p ++ [kid.1]) = some child)

-- What the tree holds once the folders and files of `es` were added.
structure Grown (b : Building) (es : List (Entry Text Nat)) : Prop where
  shows : ∀ {p k}, Plain p → b.dirAt p = some k →
    ∃ node, b.nodes[k]? = some node ∧ List.Forall₂ (b.Shows p) node.children (kids (underPath p es))
  dirs : ∀ {p s}, Plain (p ++ [s]) →
    ((b.dirAt (p ++ [s])).isSome ↔ (b.dirAt p).isSome ∧ (s, none) ∈ kids (underPath p es))
  apart : ∀ {p q k}, Plain p → Plain q → b.dirAt p = some k → b.dirAt q = some k → p = q
  shallow : ∀ {p k}, Plain p → b.dirAt p = some k → p.length ≤ k
  deep : ∀ e ∈ es, e.1 ≠ [] ∧ e.1.length ≤ b.nodes.length

section Append

variable {b : Building} {cur k : Nat} {n node : Node}

theorem append_last (hcur : cur < b.nodes.length) : (b.append cur n)[b.nodes.length]? = some n := by
  rw [append, List.getElem?_modify_ne _ _ (Nat.ne_of_lt hcur)]
  exact List.getElem?_concat_length

theorem append_self (h : b.nodes[cur]? = some node) :
    (b.append cur n)[cur]? = some { node with children := node.children ++ [b.nodes.length] } := by
  rw [append, List.getElem?_modify_eq, List.getElem?_append_left (List.getElem?_eq_some_iff.mp h).1, h]
  rfl

theorem append_other (hne : cur ≠ k) (h : b.nodes[k]? = some node) : (b.append cur n)[k]? = some node := by
  rw [append, List.getElem?_modify_ne _ _ hne, List.getElem?_append_left (List.getElem?_eq_some_iff.mp h).1, h]

theorem length_append : (b.append cur n).length = b.nodes.length + 1 := by
  rw [append, List.length_modify, List.length_append, List.length_singleton]

theorem head_append (h : (b.nodes[k]?).map head = some hd) : ((b.append cur n)[k]?).map head = some hd := by
  obtain ⟨node, hnode, rfl⟩ := Option.map_eq_some_iff.mp h
  by_cases hk : cur = k
  · subst hk
    rw [append_self hnode]
    rfl
  · rw [append_other hk hnode]
    rfl

end Append

theorem grown_start : Grown start [] where
  shows := by
    intro p k _ hdir
    unfold dirAt at hdir
    split_ifs at hdir with hp
    · cases hdir
      refine ⟨_, rfl, ?_⟩
      rw [underPath_nil]
      exact List.Forall₂.nil
    · cases hdir
  dirs := by
    intro p s _
    rw [underPath_nil]
    refine iff_of_false ?_ fun h => List.not_mem_nil h.2
    rw [dirAt, if_neg (List.append_ne_nil_of_right_ne_nil p (List.cons_ne_nil s []))]
    exact Bool.false_ne_true
  apart := by
    intro p q k _ _ hp hq
    unfold dirAt at hp hq
    split_ifs at hp hq with hp' hq'
    · exact hp'.trans hq'.symm
    · cases hq
    · cases hp
    · cases hp
  shallow := by
    intro p k _ hp
    unfold dirAt at hp
    split_ifs at hp with hp'
    · rw [hp']
      exact Nat.zero_le k
    · cases hp
  deep := fun _ he => absurd he List.not_mem_nil

namespace Grown

variable {b : Building} {es : List (Entry Text Nat)} {p q : List Text} {s : Text} {k : Option Nat} {cur : Nat}

theorem lt_length (h : Grown b es) (hplain : Plain p) (hat : b.dirAt p = some cur) : cur < b.nodes.length := by
  obtain ⟨node, hnode, -⟩ := h.shows hplain hat
  exact (List.getElem?_eq_some_iff.mp hnode).1

-- The folders on the way to one there are all there.
theorem on_the_way (h : Grown b es) (hplain : Plain p) (hat : (b.dirAt p).isSome) (t : Text) (rest : List Text)
    (hp : p = q ++ t :: rest) : (t, none) ∈ kids (underPath q es) := by
  induction rest using List.reverseRecOn generalizing p with
  | nil =>
      subst hp
      exact ((h.dirs hplain).mp hat).2
  | append_singleton rest a ih =>
      have hsnoc : q ++ t :: (rest ++ [a]) = (q ++ t :: rest) ++ [a] := by rw [List.append_assoc, List.cons_append]
      rw [hp, hsnoc] at hplain hat
      exact ih (plain_append.mp hplain).1 ((h.dirs hplain).mp hat).1 rfl

theorem elsewhere (h : Grown b es) (hplain : Plain p) (hat : b.dirAt p = some cur) (hq : q ≠ p) :
    kids (underPath q (es ++ [(p ++ [s], k)])) = kids (underPath q es) :=
  kids_elsewhere hq (h.on_the_way hplain (hat ▸ rfl))

-- A folder entered again.
theorem revisit (h : Grown b es) (hplain : Plain (p ++ [s])) (hat : b.dirAt p = some cur) {dir : Nat}
    (hdir : b.dirAt (p ++ [s]) = some dir) : Grown b (es ++ [(p ++ [s], none)]) := by
  have hplain' := (plain_append.mp hplain).1
  have hsame : ∀ q, kids (underPath q (es ++ [(p ++ [s], none)])) = kids (underPath q es) := by
    intro q
    by_cases hq : q = p
    · rw [hq, kids_put, addKid, if_pos ⟨rfl, ((h.dirs hplain).mp (hdir ▸ rfl)).2⟩]
    · exact h.elsewhere hplain' hat hq
  constructor
  · intro q j hq hqat
    rw [hsame]
    exact h.shows hq hqat
  · intro q t hq
    rw [hsame]
    exact h.dirs hq
  · exact h.apart
  · exact h.shallow
  · intro e he
    rcases List.mem_append.mp he with he | he
    · exact h.deep e he
    · rw [List.mem_singleton.mp he]
      refine ⟨List.append_ne_nil_of_right_ne_nil p (List.cons_ne_nil s []), ?_⟩
      exact (h.shallow hplain hdir).trans (h.lt_length hplain hdir).le

section Grow

variable {n : Node} {idx : AList fun _ : Text => Nat}

-- A file, or a folder entered for the first time.
theorem grow (h : Grown b es) (hplain : Plain (p ++ [s])) (hat : b.dirAt p = some cur)
    (hnew : k = none → b.dirAt (p ++ [s]) = none) (hn : head n = headOf (s, k)) (hc : n.children = [])
    (hidx : ∀ q, Plain q → dirAt ⟨b.append cur n, idx⟩ q =
      if q = p ++ [s] ∧ k = none then some b.nodes.length else b.dirAt q) :
    Grown ⟨b.append cur n, idx⟩ (es ++ [(p ++ [s], k)]) := by
  have hplain' := (plain_append.mp hplain).1
  have hs : '/' ∉ s := (plain_append.mp hplain).2 s List.mem_cons_self
  have hlt := h.lt_length hplain' hat
  have hself : p ≠ p ++ [s] := fun heq => List.cons_ne_nil s [] (List.self_eq_append_right.mp heq)
  have hfresh : k = none → (s, none) ∉ kids (underPath p es) := by
    intro hk hmem
    have hsome := (h.dirs hplain).mpr ⟨hat ▸ rfl, hmem⟩
    rw [hnew hk] at hsome
    exact Bool.false_ne_true hsome
  have hput : kids (underPath p (es ++ [(p ++ [s], k)])) = kids (underPath p es) ++ [(s, k)] := by
    rw [kids_put, addKid, if_neg]
    rintro ⟨rfl, hmem⟩
    exact hfresh rfl hmem
  have hempty : k = none → kids (underPath (p ++ [s]) es) = [] := by
    intro hk
    rw [underPath_snoc, under_eq_nil (hfresh hk)]
    rfl
  have hshows : ∀ {q c kid}, Plain q → b.Shows q c kid → Shows ⟨b.append cur n, idx⟩ q c kid := by
    rintro q c ⟨t, j⟩ hq ⟨ht, hhead, hdir⟩
    refine ⟨ht, head_append hhead, ?_⟩
    intro hj
    rw [hidx _ (plain_append.mpr ⟨hq, List.forall_mem_singleton.mpr ht⟩), if_neg]
    · exact hdir hj
    · rintro ⟨heq, hk⟩
      have hnone := hnew hk
      rw [← heq, hdir hj] at hnone
      contradiction
  constructor
  · intro q j hq hqat
    rw [hidx q hq] at hqat
    split_ifs at hqat with hcase
    · obtain ⟨rfl, hk⟩ := hcase
      obtain rfl := Option.some_inj.mp hqat
      refine ⟨n, append_last hlt, ?_⟩
      rw [h.elsewhere hplain' hat hself.symm, hempty hk, hc]
      exact List.Forall₂.nil
    · obtain ⟨node, hnode, hkids⟩ := h.shows hq hqat
      by_cases hj : cur = j
      · subst hj
        obtain rfl := h.apart hq hplain' hqat hat
        refine ⟨_, append_self hnode, ?_⟩
        rw [hput]
        refine List.rel_append (hkids.imp fun _ _ => hshows hq) (List.Forall₂.cons ?_ List.Forall₂.nil)
        refine ⟨hs, ?_, ?_⟩
        · rw [append_last hlt, Option.map_some, hn]
        · intro hk
          rw [hidx _ hplain, if_pos ⟨rfl, hk⟩]
      · refine ⟨node, append_other hj hnode, ?_⟩
        have hne : q ≠ p := by
          rintro rfl
          exact hj (Option.some_inj.mp (hat.symm.trans hqat))
        rw [h.elsewhere hplain' hat hne]
        exact hkids.imp fun _ _ => hshows hq
  · intro q t hq
    have hq' := (plain_append.mp hq).1
    rw [hidx _ hq, hidx q hq']
    by_cases hqp : q = p
    · subst hqp
      rw [if_neg (c := q = q ++ [s] ∧ k = none) fun hand => hself hand.1, hput, List.mem_append, List.mem_singleton, hat]
      split_ifs with hcase
      · obtain ⟨heq, rfl⟩ := hcase
        obtain rfl := (List.cons.inj (List.append_cancel_left heq)).1
        exact iff_of_true rfl ⟨rfl, .inr rfl⟩
      · rw [h.dirs hq, hat]
        refine and_congr_right fun _ => (or_iff_left ?_).symm
        intro heq
        obtain ⟨rfl, rfl⟩ := Prod.mk.inj heq
        exact hcase ⟨rfl, rfl⟩
    · rw [h.elsewhere hplain' hat hqp, if_neg (c := q ++ [t] = p ++ [s] ∧ k = none) fun hand => hqp (List.append_inj' hand.1 rfl).1,
        h.dirs hq]
      split_ifs with hcase
      · obtain ⟨rfl, hk⟩ := hcase
        rw [hempty hk]
        exact iff_of_false (fun hand => List.not_mem_nil hand.2) fun hand => List.not_mem_nil hand.2
      · rfl
  · intro q r j hq hr hqat hrat
    rw [hidx q hq] at hqat
    rw [hidx r hr] at hrat
    split_ifs at hqat hrat with hcase hcase' hcase'
    · exact hcase.1.trans hcase'.1.symm
    · have hlt' := h.lt_length hr hrat
      rw [← Option.some_inj.mp hqat] at hlt'
      exact absurd hlt' (Nat.lt_irrefl _)
    · have hlt' := h.lt_length hq hqat
      rw [← Option.some_inj.mp hrat] at hlt'
      exact absurd hlt' (Nat.lt_irrefl _)
    · exact h.apart hq hr hqat hrat
  · intro q j hq hqat
    rw [hidx q hq] at hqat
    split_ifs at hqat with hcase
    · rw [hcase.1, ← Option.some_inj.mp hqat, List.length_append]
      exact (h.shallow hplain' hat).trans_lt hlt
    · exact h.shallow hq hqat
  · intro e he
    dsimp only
    rw [length_append]
    rcases List.mem_append.mp he with he | he
    · exact (h.deep e he).imp_right Nat.le_succ_of_le
    · rw [List.mem_singleton.mp he]
      refine ⟨List.append_ne_nil_of_right_ne_nil p (List.cons_ne_nil s []), ?_⟩
      rw [List.length_append]
      exact Nat.succ_le_succ ((h.shallow hplain' hat).trans hlt.le)

end Grow

end Grown

end Building

section Listing

-- The folders passed on the way from one at `p`.
def foldersFrom (p : List Text) : List Text → List (Entry Text Nat)
  | [] => []
  | s :: segs => (p ++ [s], none) :: foldersFrom (p ++ [s]) segs

def entriesOf (path : Text × Nat) : List (Entry Text Nat) :=
  match (segments path.1).getLast? with
  | none => []
  | some _ => foldersFrom [] (segments path.1).dropLast ++ [(segments path.1, some path.2)]

end Listing

namespace Building

variable {b : Building} {es : List (Entry Text Nat)} {p segs : List Text} {s last : Text} {cur i : Nat}

theorem enter_grown (h : Grown b es) (hplain : Plain (p ++ [s])) (hat : b.dirAt p = some cur) :
    ∃ b' dir, enter (b, cur, fullOf p) s = (b', dir, fullOf (p ++ [s])) ∧
      Grown b' (es ++ [(p ++ [s], none)]) ∧ b'.dirAt (p ++ [s]) = some dir := by
  have hne : p ++ [s] ≠ [] := List.append_ne_nil_of_right_ne_nil p (List.cons_ne_nil s [])
  have hkey : b.dirAt (p ++ [s]) = b.dirIndex.lookup (fullOf p ++ '/' :: s) := by
    rw [dirAt, if_neg hne, fullOf_snoc]
  unfold enter
  dsimp only
  rw [fullOf_snoc, ← hkey]
  cases hdir : b.dirAt (p ++ [s]) with
  | some dir => exact ⟨b, dir, rfl, h.revisit hplain hat hdir, hdir⟩
  | none =>
      have hidx : ∀ q, Plain q →
          dirAt ⟨b.append cur ⟨s, true, -1, []⟩, b.dirIndex.insert (fullOf p ++ '/' :: s) b.nodes.length⟩ q =
            if q = p ++ [s] ∧ (none : Option Nat) = none then some b.nodes.length else b.dirAt q := by
        intro q hq
        unfold dirAt
        dsimp only
        rw [← fullOf_snoc]
        by_cases hroot : q = []
        · rw [if_pos hroot, if_pos hroot, if_neg fun hand => hne (hand.1.symm.trans hroot)]
        · rw [if_neg hroot, if_neg hroot]
          split_ifs with hq'
          · rw [hq'.1]
            exact AList.lookup_insert _
          · exact AList.lookup_insert_ne fun heq => hq' ⟨fullOf_injective hq hplain heq, rfl⟩
      refine ⟨_, _, rfl, h.grow hplain hat (fun _ => hdir) rfl rfl hidx, ?_⟩
      rw [hidx _ hplain, if_pos ⟨rfl, rfl⟩]

theorem enterAll_grown (h : Grown b es) (hplain : Plain (p ++ segs)) (hat : b.dirAt p = some cur) :
    ∃ b' dir, segs.foldl enter (b, cur, fullOf p) = (b', dir, fullOf (p ++ segs)) ∧
      Grown b' (es ++ foldersFrom p segs) ∧ b'.dirAt (p ++ segs) = some dir := by
  induction segs generalizing b es p cur with
  | nil =>
      rw [List.append_nil, foldersFrom, List.append_nil]
      exact ⟨b, cur, rfl, h, hat⟩
  | cons s segs ih =>
      rw [List.append_cons] at hplain ⊢
      obtain ⟨b', dir, henter, hgrown, hat'⟩ := enter_grown h (plain_append.mp hplain).1 hat
      rw [List.foldl_cons, henter, foldersFrom, List.append_cons es]
      exact ih hgrown hplain hat'

theorem addFile_grown (h : Grown b es) (hplain : Plain (segs ++ [last])) (i : Nat) :
    Grown (b.addFile segs last i) (es ++ (foldersFrom [] segs ++ [(segs ++ [last], some i)])) := by
  obtain ⟨b', cur, hwalk, hgrown, hat⟩ :=
    enterAll_grown (p := []) h (plain_append.mp hplain).1 (if_pos rfl)
  have hrun : segs.foldl enter (b, 0, []) = (b', cur, fullOf segs) := hwalk
  unfold addFile
  rw [hrun, ← List.append_assoc]
  exact hgrown.grow hplain hat nofun rfl rfl fun q _ => (if_neg fun hand => nomatch hand.2).symm

end Building

variable {b : Building} {es : List (Entry Text Nat)}

theorem addPath_grown (h : b.Grown es) (path : Text × Nat) : (addPath b path).Grown (es ++ entriesOf path) := by
  unfold addPath entriesOf
  cases hlast : (segments path.1).getLast? with
  | none => exact (List.append_nil es).symm ▸ h
  | some last =>
      have hsegs := List.dropLast_append_getLast? last hlast
      have hplain := plain_segments path.1
      rw [← hsegs] at hplain
      have hgrown := Building.addFile_grown h hplain path.2
      rw [hsegs] at hgrown
      exact hgrown

theorem addPaths_grown (h : b.Grown es) (paths : List (Text × Nat)) :
    (paths.foldl addPath b).Grown (es ++ paths.flatMap entriesOf) := by
  induction paths generalizing b es with
  | nil => exact (List.append_nil es).symm ▸ h
  | cons path paths ih =>
      rw [List.foldl_cons, List.flatMap_cons, ← List.append_assoc]
      exact ih (addPath_grown h path)

theorem build_grown (paths : List Text) : (build paths).Grown (paths.zipIdx.flatMap entriesOf) :=
  addPaths_grown Building.grown_start paths.zipIdx

section Rows

def rowAt (depth : Nat) (e : Entry Text Nat) : FileTreeRow :=
  ⟨e.1.getLastD [], depth + e.1.length - 1, (headOf ([], e.2)).2.1, (headOf ([], e.2)).2.2⟩

theorem rowAt_within (depth : Nat) (s : Text) {e : Entry Text Nat} (he : e.1 ≠ []) :
    rowAt depth (within s e) = rowAt (depth + 1) e := by
  obtain ⟨t, rest, hcons⟩ := List.exists_cons_of_ne_nil he
  unfold rowAt within
  rw [hcons, List.length_cons, List.length_cons, FileTreeRow.mk.injEq]
  exact ⟨rfl, by omega, rfl, rfl⟩

theorem flatMap_eq_of_forall₂ {α β γ : Type*} {R : α → β → Prop} {f : α → List γ} {g : β → List γ} {xs : List α}
    {ys : List β} (h : List.Forall₂ R xs ys) (hfg : ∀ x y, R x y → f x = g y) : xs.flatMap f = ys.flatMap g := by
  induction h with
  | nil => rfl
  | cons hxy _ ih => rw [List.flatMap_cons, List.flatMap_cons, hfg _ _ hxy, ih]

-- The rows are the places of the tree, in order.
theorem emitRows_grown (h : b.Grown es) {fuel self depth : Nat} {p : List Text} (hplain : Plain p)
    (hat : b.dirAt p = some self) :
    emitRows b.nodes fuel self depth = (places fuel (underPath p es)).map (rowAt depth) := by
  induction fuel generalizing self depth p with
  | zero => rfl
  | succ fuel ih =>
      obtain ⟨node, hnode, hkids⟩ := h.shows hplain hat
      unfold emitRows places
      rw [hnode, List.map_flatMap]
      refine flatMap_eq_of_forall₂ hkids ?_
      rintro c ⟨s, k⟩ ⟨hs, hhead, hdir⟩
      obtain ⟨n, hn, heq⟩ := Option.map_eq_some_iff.mp hhead
      obtain ⟨hname, hrest⟩ := Prod.mk.inj heq
      obtain ⟨hisDir, hindex⟩ := Prod.mk.inj hrest
      rw [hn]
      dsimp only
      rw [List.map_cons, hname, hisDir, hindex]
      congr 1
      cases k with
      | some i => rfl
      | none =>
          have hdeeper := plain_append.mpr ⟨hplain, List.forall_mem_singleton.mpr hs⟩
          refine (ih hdeeper (hdir rfl)).trans ?_
          rw [underPath_snoc, if_pos rfl, List.map_map]
          exact List.map_congr_left fun e he => (rowAt_within depth s (places_ne_nil _ _ e he)).symm

theorem rows_eq_places (paths : List Text) :
    buildFileTree paths =
      (places (build paths).nodes.length (paths.zipIdx.flatMap entriesOf)).map (rowAt 0) :=
  emitRows_grown (build_grown paths) (p := []) nofun (if_pos rfl)

end Rows

end BATorrent.FileTree
