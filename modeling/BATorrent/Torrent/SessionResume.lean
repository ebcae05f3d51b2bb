import BATorrent.Lib.Text
import BATorrent.Lib.FilePath
import BATorrent.Torrent.InfoHash

namespace BATorrent.SessionResume

open Lib Lib.FilePath

def kIncompleteSuffix : List Char := ['.', '!', 'b', 't']

def resumeFileName (hash : List Char) : List Char := hash ++ ".resume".toList

def partsSidecarName (hash : List Char) : List Char := '.' :: hash ++ ".parts".toList

-- The part before the first separator. A path that starts with one is kept whole.
def topLevelName (path : List Char) : List Char :=
  let p := Text.replaceAll ['\\'] ['/'] path
  match p.idxOf? '/' with
  | some (k + 1) => p.take (k + 1)
  | _ => p

def appendTopLevelName (tops : List (List Char)) (path : List Char) : List (List Char) :=
  let top := topLevelName path
  if top ≠ [] ∧ top ∉ tops then tops ++ [top] else tops

def topLevelTrashNames (filePaths : List (List Char)) : List (List Char) :=
  filePaths.foldl appendTopLevelName []

def chopIncompleteSuffix (name : List Char) : List Char :=
  if kIncompleteSuffix <:+ name then name.take (name.length - 4) else name

def withIncompleteSuffix (path : List Char) : List Char :=
  if kIncompleteSuffix <:+ path then path else path ++ kIncompleteSuffix

-- The name a file goes on under, by the sizes of the plain file and of the suffixed one on disk.
def reconcileIncompleteSuffix (effectivePath : List Char) (wantSize : Int) (plain bt : Option Int) :
    List Char :=
  let base := chopIncompleteSuffix effectivePath
  if plain = some wantSize then base
  else if bt = some wantSize then base ++ kIncompleteSuffix
  else effectivePath

def trashTargetsForRemoval (rules : Rules) (savePath : List Char)
    (topLevelNames : List (List Char)) (hash : List Char) : List (List Char) :=
  let dir := folder savePath
  let targets := topLevelNames.flatMap (fun t =>
    if t = [] then []
    else
      let base := chopIncompleteSuffix t
      [filePath rules dir base, filePath rules dir (base ++ kIncompleteSuffix)])
  if hash ≠ [] then targets ++ [filePath rules dir (partsSidecarName hash)] else targets

inductive RemovalDisposition where
  | keep
  | trash
  | permanentDelete
deriving DecidableEq, Repr

def shouldScheduleFileRemoval (deleteFiles : Bool) (trashTargets : List (List Char)) : Bool :=
  deleteFiles && !trashTargets.isEmpty

def removalDisposition (deleteFiles permanent : Bool) (trashTargets : List (List Char)) :
    RemovalDisposition :=
  if !shouldScheduleFileRemoval deleteFiles trashTargets then .keep
  else if permanent then .permanentDelete
  else .trash

def downloadedPayloadThisSession (totalPayloadDownload : Int) : Bool := decide (0 < totalPayloadDownload)

-- An empty destination is none: the torrent stays where it is.
def finishMoveDestination (intendedPathOrEmpty : List Char) (autoMoveEnabled : Bool)
    (autoMovePath : List Char) : List Char :=
  if intendedPathOrEmpty ≠ [] then intendedPathOrEmpty
  else if autoMoveEnabled ∧ autoMovePath ≠ [] then autoMovePath
  else []

-- What removeTorrent reads off the torrent it drops. `files` is there once the metadata is.
structure RemovedTorrent where
  savePath : List Char
  name : List Char
  files : Option (List (List Char))
  hash : Sha1Hash

def RemovedTorrent.filePaths (t : RemovedTorrent) : List (List Char) :=
  match t.files with
  | some paths => paths
  | none => [t.name]

def RemovedTorrent.trashTargets (rules : Rules) (t : RemovedTorrent) : List (List Char) :=
  trashTargetsForRemoval rules t.savePath (topLevelTrashNames t.filePaths) t.hash.toHex

section TopLevel

theorem backslash_notMem_topLevelName (path : List Char) : '\\' ∉ topLevelName path := by
  have hreplaced : '\\' ∉ Text.replaceAll ['\\'] ['/'] path := by
    rw [Text.replaceAll_singleton]
    intro h
    obtain ⟨c, -, hc⟩ := List.mem_flatMap.mp h
    split_ifs at hc with hback
    · simp at hc
    · exact hback (List.mem_singleton.mp hc).symm
  unfold topLevelName
  simp only
  split
  · exact fun h => hreplaced (List.mem_of_mem_take h)
  · exact hreplaced

-- A top-level name has no separator, unless the path started with one.
theorem topLevelName_slash (path : List Char) :
    '/' ∉ topLevelName path ∨ (topLevelName path).head? = some '/' := by
  unfold topLevelName
  simp only
  generalize Text.replaceAll ['\\'] ['/'] path = s
  cases h : s.idxOf? '/' with
  | none =>
      left
      exact List.idxOf?_eq_none_iff.mp h
  | some k =>
      obtain ⟨hlt, hat, hbefore⟩ := List.idxOf?_eq_some_iff.mp h
      cases k with
      | zero =>
          right
          rw [List.head?_eq_getElem?, List.getElem?_eq_getElem hlt, hat]
      | succ k =>
          left
          intro hm
          obtain ⟨j, hj, he⟩ := List.mem_take_iff_getElem.mp hm
          exact absurd he (by simpa using hbefore j (by omega))

theorem mem_appendTopLevelName {tops : List (List Char)} {path t : List Char} :
    t ∈ appendTopLevelName tops path ↔ t ∈ tops ∨ t ≠ [] ∧ topLevelName path = t := by
  unfold appendTopLevelName
  simp only
  split_ifs with hnew
  · rw [List.mem_append, List.mem_singleton]
    apply or_congr Iff.rfl
    constructor
    · rintro rfl
      exact ⟨hnew.1, rfl⟩
    · exact fun h => h.2.symm
  · constructor
    · exact .inl
    · rintro (h | ⟨hne, rfl⟩)
      · exact h
      · by_contra hout
        exact hnew ⟨hne, hout⟩

theorem mem_topLevelTrashNames {paths : List (List Char)} {t : List Char} :
    t ∈ topLevelTrashNames paths ↔ t ≠ [] ∧ ∃ p ∈ paths, topLevelName p = t := by
  have hgen : ∀ tops : List (List Char), t ∈ paths.foldl appendTopLevelName tops ↔
      t ∈ tops ∨ t ≠ [] ∧ ∃ p ∈ paths, topLevelName p = t := by
    induction paths with
    | nil => simp
    | cons p paths ih =>
        intro tops
        rw [List.foldl_cons, ih, mem_appendTopLevelName, or_assoc, ← and_or_left]
        simp only [List.mem_cons, exists_eq_or_imp]
  rw [topLevelTrashNames, hgen]
  simp

end TopLevel

section Targets

variable (rules : Rules) (dir : List Char)

theorem chopIncompleteSuffix_eq (name : List Char) :
    chopIncompleteSuffix name = name ∨ name = chopIncompleteSuffix name ++ kIncompleteSuffix := by
  unfold chopIncompleteSuffix
  split_ifs with h
  · right
    obtain ⟨base, rfl⟩ := h
    simp [kIncompleteSuffix]
  · exact .inl rfl

theorem mem_of_mem_chopIncompleteSuffix {name : List Char} {c : Char}
    (h : c ∈ chopIncompleteSuffix name) : c ∈ name := by
  rcases chopIncompleteSuffix_eq name with he | he
  · rwa [he] at h
  · rw [he]
    exact List.mem_append_left _ h

theorem head?_chopIncompleteSuffix {name : List Char} (h : chopIncompleteSuffix name ≠ []) :
    (chopIncompleteSuffix name).head? = name.head? := by
  rcases chopIncompleteSuffix_eq name with he | he
  · rw [he]
  · conv_rhs => rw [he]
    rw [List.head?_append_of_ne_nil _ h]

-- A base that the folder does not take as absolute has no separator at all.
theorem no_separator_of_relative {path : List Char}
    (hrel : rules.isAbsolute (chopIncompleteSuffix (topLevelName path)) = false) :
    '/' ∉ chopIncompleteSuffix (topLevelName path) ∧
      '\\' ∉ chopIncompleteSuffix (topLevelName path) := by
  refine ⟨?_, fun h => backslash_notMem_topLevelName path (mem_of_mem_chopIncompleteSuffix h)⟩
  intro hslash
  rcases topLevelName_slash path with hno | hhead
  · exact hno (mem_of_mem_chopIncompleteSuffix hslash)
  · have hne : chopIncompleteSuffix (topLevelName path) ≠ [] := List.ne_nil_of_mem hslash
    obtain ⟨rest, hrest⟩ := List.head?_eq_some_iff.mp
      ((head?_chopIncompleteSuffix hne).trans hhead)
    rw [hrest, rules.slash] at hrel
    exact Bool.noConfusion hrel

-- The suffix moves a target neither into the folder nor out of it.
theorem inside_filePath_suffix {base : List Char} (h : Inside dir (filePath rules dir base)) :
    Inside dir (filePath rules dir (base ++ kIncompleteSuffix)) := by
  have hslash : '/' ∉ kIncompleteSuffix := by decide
  have hback : '\\' ∉ kIncompleteSuffix := by decide
  have hlen : 2 < kIncompleteSuffix.length := by decide
  rw [inside_filePath_iff] at h ⊢
  cases base with
  | nil =>
      by_cases habs : rules.isAbsolute []
      · rw [if_pos habs] at h
        obtain ⟨c, hc, he⟩ := h
        unfold join at he
        split_ifs at he <;> simp [hc.nonempty] at he
      · rw [if_neg habs] at h
        exact absurd rfl h.nonempty
  | cons c s =>
      have hsame : rules.isAbsolute (c :: s ++ kIncompleteSuffix) = rules.isAbsolute (c :: s) :=
        rules.suffix c s ['!', 'b', 't']
      rw [hsame]
      split_ifs at h ⊢
      · exact h.append hlen hslash hback
      · exact h.append hlen hslash hback

-- What a path of the torrent must look like for its two targets to stay in the folder.
def StaysInside (path : List Char) : Prop :=
  let base := chopIncompleteSuffix (topLevelName path)
  topLevelName path = [] ∨
    if rules.isAbsolute base then Inside dir base
    else base ≠ [] ∧ base ≠ ['.'] ∧ base ≠ ['.', '.']

theorem inside_filePath_base_iff (path : List Char) :
    Inside dir (filePath rules dir (chopIncompleteSuffix (topLevelName path))) ↔
      if rules.isAbsolute (chopIncompleteSuffix (topLevelName path)) then
        Inside dir (chopIncompleteSuffix (topLevelName path))
      else
        chopIncompleteSuffix (topLevelName path) ≠ [] ∧
          chopIncompleteSuffix (topLevelName path) ≠ ['.'] ∧
          chopIncompleteSuffix (topLevelName path) ≠ ['.', '.'] := by
  rw [inside_filePath_iff]
  split_ifs with habs
  · exact Iff.rfl
  · obtain ⟨hslash, hback⟩ := no_separator_of_relative rules (by simpa using habs)
    constructor
    · exact fun h => ⟨h.nonempty, h.notDot, h.notDotDot⟩
    · exact fun ⟨hne, hdot, hdots⟩ => ⟨hne, hdot, hdots, hslash, hback⟩

theorem component_partsSidecarName {n : Nat} (d : Digest n) :
    Component (partsSidecarName d.toHex) := by
  have hplain : ∀ c, c ∉ "0123456789abcdef".toList → c ∉ d.toHex := fun c hc h => hc (mem_toHex d h)
  have hlen : 2 < (partsSidecarName d.toHex).length := by
    simp [partsSidecarName]
  refine ⟨?_, ?_, ?_, ?_, ?_⟩
  · simp [partsSidecarName]
  · intro h
    simp [h] at hlen
  · intro h
    simp [h] at hlen
  · simp [partsSidecarName, hplain '/' (by decide)]
  · simp [partsSidecarName, hplain '\\' (by decide)]

theorem inside_partsSidecarName {n : Nat} (d : Digest n) :
    Inside dir (filePath rules dir (partsSidecarName d.toHex)) := by
  rw [inside_filePath_iff]
  have hrel : rules.isAbsolute (partsSidecarName d.toHex) = false := rules.dot _
  rw [hrel]
  exact component_partsSidecarName d

end Targets

section Removal

variable (rules : Rules)

theorem mem_trashTargets {t : RemovedTorrent} {target : List Char} :
    target ∈ t.trashTargets rules ↔
      (∃ p ∈ t.filePaths, topLevelName p ≠ [] ∧
        (target = filePath rules (folder t.savePath) (chopIncompleteSuffix (topLevelName p)) ∨
          target = filePath rules (folder t.savePath)
            (chopIncompleteSuffix (topLevelName p) ++ kIncompleteSuffix))) ∨
      t.hash.toHex ≠ [] ∧
        target = filePath rules (folder t.savePath) (partsSidecarName t.hash.toHex) := by
  have hnames : target ∈ (topLevelTrashNames t.filePaths).flatMap (fun n =>
      if n = [] then []
      else
        [filePath rules (folder t.savePath) (chopIncompleteSuffix n),
          filePath rules (folder t.savePath) (chopIncompleteSuffix n ++ kIncompleteSuffix)]) ↔
      ∃ p ∈ t.filePaths, topLevelName p ≠ [] ∧
        (target = filePath rules (folder t.savePath) (chopIncompleteSuffix (topLevelName p)) ∨
          target = filePath rules (folder t.savePath)
            (chopIncompleteSuffix (topLevelName p) ++ kIncompleteSuffix)) := by
    simp only [List.mem_flatMap, mem_topLevelTrashNames]
    constructor
    · rintro ⟨n, ⟨hne, p, hp, rfl⟩, ht⟩
      rw [if_neg hne] at ht
      exact ⟨p, hp, hne, by simpa using ht⟩
    · rintro ⟨p, hp, hne, ht⟩
      refine ⟨topLevelName p, ⟨hne, p, hp, rfl⟩, ?_⟩
      rw [if_neg hne]
      simpa using ht
  unfold RemovedTorrent.trashTargets trashTargetsForRemoval
  simp only
  by_cases hhash : t.hash.toHex = []
  · simp only [hhash, ne_eq, not_true_eq_false, if_false, false_and, or_false]
    exact hnames
  · simp only [hhash, ne_eq, not_false_eq_true, if_true, List.mem_append, List.mem_singleton,
      true_and]
    exact or_congr hnames Iff.rfl

theorem trashTargets_inside_iff (t : RemovedTorrent) :
    (∀ target ∈ t.trashTargets rules, Inside (folder t.savePath) target) ↔
      ∀ p ∈ t.filePaths, StaysInside rules (folder t.savePath) p := by
  constructor
  · intro h p hp
    by_cases hne : topLevelName p = []
    · exact .inl hne
    · right
      rw [← inside_filePath_base_iff]
      exact h _ ((mem_trashTargets rules).mpr (.inl ⟨p, hp, hne, .inl rfl⟩))
  · intro h target ht
    rcases (mem_trashTargets rules).mp ht with ⟨p, hp, hne, ht⟩ | ⟨-, rfl⟩
    · have hbase : Inside (folder t.savePath)
          (filePath rules (folder t.savePath) (chopIncompleteSuffix (topLevelName p))) := by
        rw [inside_filePath_base_iff]
        exact (h p hp).resolve_left hne
      rcases ht with rfl | rfl
      · exact hbase
      · exact inside_filePath_suffix rules _ hbase
    · exact inside_partsSidecarName rules _ t.hash

-- A magnet without metadata, called `..` by its link.
def dotDotMagnet : RemovedTorrent where
  savePath := "/dl".toList
  name := ['.', '.']
  files := none
  hash := .replicate 20 0

-- Its first target is the parent of the save path.
theorem trashTargets_outside :
    "/dl/..".toList ∈ dotDotMagnet.trashTargets unix ∧
      ¬ Inside (folder dotDotMagnet.savePath) "/dl/..".toList := by
  constructor
  · decide
  · intro h
    have hname : Inside "/dl".toList (join "/dl".toList ['.', '.']) := h
    exact ((inside_join_iff _ _).mp hname).notDotDot rfl

end Removal

end BATorrent.SessionResume
