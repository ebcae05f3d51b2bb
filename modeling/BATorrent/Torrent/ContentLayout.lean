import BATorrent.Torrent.Library
import BATorrent.Torrent.SessionResume
import Mathlib.Logic.Function.Basic

namespace BATorrent.ContentLayout

open SessionResume
open Library (Text TorrentFile TorrentInfo)

-- What the settings say about a torrent's files. A pattern is a regular expression, or none where its
-- text is blank or not valid.
structure Settings where
  contentLayout : Int
  excludedFilePatterns : List Text
  compile : Text → Option (Text → Bool)

-- What libtorrent is given to add a torrent.
structure AddTorrentParams where
  ti : Option TorrentInfo
  renamedFiles : Nat → Option Text
  filePriorities : List UInt8

def dontDownload : UInt8 := 0

def defaultPriority : UInt8 := 4

def filePaths (ti : TorrentInfo) : List Text := ti.files.map TorrentFile.path

def excludedFileIndexes (compile : Text → Option (Text → Bool)) (patterns paths : List Text) : List Nat :=
  let regexes := patterns.filterMap compile
  (paths.zipIdx.filter fun (path, _) => regexes.any fun re => re path).map Prod.snd

namespace AddTorrentParams

def rename (atp : AddTorrentParams) (file : Nat) (name : Text) : AddTorrentParams :=
  { atp with renamedFiles := Function.update atp.renamedFiles file (some name) }

def applyContentLayout (atp : AddTorrentParams) (contentLayout : Int) : AddTorrentParams :=
  match atp.ti with
  | none => atp
  | some ti =>
      if contentLayout = 0 then atp
      else
        (SessionConfig.planContentLayout contentLayout ti.name (filePaths ti)).foldl
          (fun atp kv => atp.rename kv.1 kv.2) atp

def applyExcludedPatterns (atp : AddTorrentParams) (c : Settings) : AddTorrentParams :=
  match atp.ti with
  | none => atp
  | some ti =>
      let hit := excludedFileIndexes c.compile c.excludedFilePatterns (filePaths ti)
      if hit = [] then atp
      else
        let priorities :=
          if atp.filePriorities = [] then List.replicate ti.files.length defaultPriority
          else atp.filePriorities
        { atp with filePriorities := hit.foldl (fun ps i => ps.set i dontDownload) priorities }

def suffixFile (atp : AddTorrentParams) (file : Text × Nat) : AddTorrentParams :=
  let original := file.1
  let suffixed := withIncompleteSuffix original
  if suffixed = original then atp else atp.rename file.2 suffixed

-- The paths are those of the metadata, whatever was renamed before.
def applyIncompleteSuffix (atp : AddTorrentParams) : AddTorrentParams :=
  match atp.ti with
  | none => atp
  | some ti => (filePaths ti).zipIdx.foldl suffixFile atp

-- What addTorrent and addTorrentInfo both do to a torrent before libtorrent has it.
def prepare (atp : AddTorrentParams) (c : Settings) : AddTorrentParams :=
  ((atp.applyContentLayout c.contentLayout).applyExcludedPatterns c).applyIncompleteSuffix

-- The names that libtorrent knows the files by.
def names (atp : AddTorrentParams) : List Text :=
  match atp.ti with
  | none => []
  | some ti => (filePaths ti).zipIdx.map fun (path, i) => (atp.renamedFiles i).getD path

end AddTorrentParams

def stripIncompleteSuffix (path : Text) : Option Text :=
  if kIncompleteSuffix <:+ path then some (path.take (path.length - 4)) else none

def onFileCompleted (names : List Text) (file : Nat) : List Text :=
  match (names[file]?).bind stripIncompleteSuffix with
  | some stripped => names.set file stripped
  | none => names

section Passes

variable (atp : AddTorrentParams)

theorem ti_foldl {α : Type} (f : AddTorrentParams → α → AddTorrentParams) (l : List α)
    (hf : ∀ atp a, (f atp a).ti = atp.ti) : (l.foldl f atp).ti = atp.ti := by
  induction l generalizing atp with
  | nil => rfl
  | cons a l ih => rw [List.foldl_cons, ih, hf]

theorem ti_applyContentLayout (layout : Int) : (atp.applyContentLayout layout).ti = atp.ti := by
  unfold AddTorrentParams.applyContentLayout
  split
  · rfl
  · split
    · rfl
    · exact ti_foldl _ _ _ fun _ _ => rfl

theorem ti_suffixFile (file : Text × Nat) : (atp.suffixFile file).ti = atp.ti := by
  unfold AddTorrentParams.suffixFile
  dsimp only
  split
  · rfl
  · rfl

-- The patterns leave the names alone.
theorem applyExcludedPatterns_names (c : Settings) :
    (atp.applyExcludedPatterns c).ti = atp.ti ∧
      (atp.applyExcludedPatterns c).renamedFiles = atp.renamedFiles := by
  unfold AddTorrentParams.applyExcludedPatterns
  split
  · exact ⟨rfl, rfl⟩
  · dsimp only
    split
    · exact ⟨rfl, rfl⟩
    · exact ⟨rfl, rfl⟩

theorem renamedFiles_foldl (plan : List (Nat × Text)) (hkeys : (plan.map Prod.fst).Nodup) (i : Nat) :
    (plan.foldl (fun atp kv => atp.rename kv.1 kv.2) atp).renamedFiles i =
      (plan.lookup i).or (atp.renamedFiles i) := by
  induction plan generalizing atp with
  | nil => rfl
  | cons kv rest ih =>
      obtain ⟨k, name⟩ := kv
      obtain ⟨hk, hrest⟩ := List.nodup_cons.mp hkeys
      rw [List.foldl_cons, ih _ hrest]
      by_cases hi : i = k
      · subst hi
        have hnone : rest.lookup i = none := by
          rw [List.lookup_eq_none_iff]
          intro kv hkv
          rw [bne_iff_ne]
          rintro rfl
          exact hk (List.mem_map.mpr ⟨kv, hkv, rfl⟩)
        simp [hnone, AddTorrentParams.rename]
      · have hbeq : (i == k) = false := beq_eq_false_iff_ne.mpr hi
        simp [AddTorrentParams.rename, List.lookup_cons, hbeq, Function.update_of_ne hi]

theorem renamedFiles_suffixFile (path : Text) (k i : Nat) :
    (atp.suffixFile (path, k)).renamedFiles i =
      if withIncompleteSuffix path ≠ path ∧ i = k then some (withIncompleteSuffix path)
      else atp.renamedFiles i := by
  unfold AddTorrentParams.suffixFile
  dsimp only
  by_cases hsame : withIncompleteSuffix path = path
  · simp [hsame]
  · by_cases hi : i = k
    · subst hi
      simp [hsame, AddTorrentParams.rename]
    · simp [hsame, hi, AddTorrentParams.rename]

theorem renamedFiles_before (paths : List Text) (k i : Nat) (hi : i < k) :
    ((paths.zipIdx k).foldl AddTorrentParams.suffixFile atp).renamedFiles i = atp.renamedFiles i := by
  induction paths generalizing atp k with
  | nil => rfl
  | cons path rest ih =>
      rw [List.zipIdx_cons, List.foldl_cons, ih _ _ (Nat.lt_succ_of_lt hi), renamedFiles_suffixFile,
        if_neg (fun h => Nat.ne_of_lt hi h.2)]

-- The pass reads a file's own path, not what an earlier pass named it.
theorem renamedFiles_suffix_foldl (paths : List Text) (k i : Nat) (path : Text)
    (hpath : paths[i]? = some path) :
    ((paths.zipIdx k).foldl AddTorrentParams.suffixFile atp).renamedFiles (k + i) =
      if withIncompleteSuffix path = path then atp.renamedFiles (k + i)
      else some (withIncompleteSuffix path) := by
  induction paths generalizing atp k i with
  | nil => cases hpath
  | cons head rest ih =>
      rw [List.zipIdx_cons, List.foldl_cons]
      cases i with
      | zero =>
          obtain rfl := Option.some.inj hpath
          have hbefore := renamedFiles_before (atp.suffixFile (head, k)) rest (k + 1) k (Nat.lt_succ_self k)
          rw [Nat.add_zero k, hbefore, renamedFiles_suffixFile]
          by_cases hsame : withIncompleteSuffix head = head
          · simp [hsame]
          · simp [hsame]
      | succ i =>
          have hnext : k + (i + 1) = k + 1 + i := by omega
          have hhead : (atp.suffixFile (head, k)).renamedFiles (k + 1 + i) = atp.renamedFiles (k + 1 + i) := by
            rw [renamedFiles_suffixFile, if_neg]
            omega
          rw [hnext, ih _ _ _ hpath, hhead]

end Passes

section Plans

variable {layout : Int} {name path : Text} {paths : List Text} {i : Nat}

theorem nodup_plan (layout : Int) (name : Text) (paths : List Text) :
    ((SessionConfig.planContentLayout layout name paths).map Prod.fst).Nodup := by
  unfold SessionConfig.planContentLayout
  split
  · exact List.nodup_nil
  · split_ifs
    · split
      · exact List.nodup_nil
      · dsimp only
        split_ifs
        · have hkeys : ∀ names : List Text, (names.zipIdx.map Prod.swap).map Prod.fst =
              List.range' 0 names.length := by
            intro names
            rw [List.map_map, ← List.zipIdx_map_snd]
            rfl
          rw [hkeys]
          exact List.nodup_range'
        · exact List.nodup_nil
    · exact List.nodup_singleton _
    · exact List.nodup_nil

-- The layouts that give the files of a list other names: a shared folder goes, or a lone file gets one.
def Relaid (layout : Int) (paths : List Text) : Prop :=
  (layout = 2 ∧ 2 ≤ paths.length ∧ ∃ folder : Text, ∀ path ∈ paths, folder ++ ['/'] <+: path) ∨
    (layout = 1 ∧ ∃ path, paths = [path] ∧ '/' ∉ path)

theorem lookup_zipIdx (names : List Text) (k i : Nat) :
    ((names.zipIdx k).map Prod.swap).lookup (k + i) = names[i]? := by
  induction names generalizing k i with
  | nil => rfl
  | cons head rest ih =>
      rw [List.zipIdx_cons, List.map_cons]
      cases i with
      | zero => simp [Prod.swap_prod_mk]
      | succ i =>
          have hne : (k + (i + 1) == k) = false := beq_eq_false_iff_ne.mpr (by omega)
          have hnext : k + (i + 1) = k + 1 + i := by omega
          rw [Prod.swap_prod_mk, List.lookup_cons, hne, hnext, ih]
          rfl

theorem take_slash {root : Text} {slash : Nat} (h : root.idxOf? '/' = some slash) :
    root.take (slash + 1) = root.take slash ++ ['/'] := by
  obtain ⟨hlt, hat, -⟩ := List.idxOf?_eq_some_iff.mp h
  rw [List.take_succ_eq_append_getElem hlt, hat]

-- The first folder of a path is at most as long as any that it starts with.
theorem take_slash_prefixes {root folder : Text} {slash : Nat} (h : root.idxOf? '/' = some slash)
    (hroot : folder ++ ['/'] <+: root) : root.take (slash + 1) <+: folder ++ ['/'] := by
  obtain ⟨hlt, -, hbefore⟩ := List.idxOf?_eq_some_iff.mp h
  obtain ⟨rest, rfl⟩ := hroot
  have hle : slash ≤ folder.length := by
    by_contra hlong
    exact hbefore folder.length (by omega) (by simp)
  refine List.prefix_of_prefix_length_le (List.take_prefix _ _) (List.prefix_append _ _) ?_
  simp only [List.length_take, List.length_append, List.length_singleton]
  omega

theorem plan_of_not_relaid (h : ¬ Relaid layout paths) :
    SessionConfig.planContentLayout layout name paths = [] := by
  unfold SessionConfig.planContentLayout
  cases paths with
  | nil => rfl
  | cons root rest =>
      dsimp only
      split_ifs with htwo hone
      · cases hslash : root.idxOf? '/' with
        | none => rfl
        | some slash =>
            dsimp only
            split_ifs with hshared
            · obtain ⟨hrest, hall⟩ := hshared
              refine absurd (.inl ⟨htwo, ?_, root.take slash, fun path hpath => ?_⟩) h
              · have hlen := List.length_pos_iff.mpr hrest
                simp only [List.length_cons]
                omega
              · rw [← take_slash hslash]
                exact List.isPrefixOf_iff_prefix.mp (List.all_eq_true.mp hall path hpath)
            · rfl
      · exact absurd (.inr ⟨hone.1, root, by rw [hone.2.1], hone.2.2⟩) h
      · rfl

theorem lookup_of_relaid (name : Text) (h : Relaid layout paths) (hpath : paths[i]? = some path) :
    ∃ other, (SessionConfig.planContentLayout layout name paths).lookup i = some other ∧
      ((∃ folder, path = folder ++ '/' :: other) ∨ ∃ folder, other = folder ++ '/' :: path) := by
  rcases h with ⟨rfl, hlen, folder, hall⟩ | ⟨rfl, root, rfl, hslash⟩
  · cases paths with
    | nil => cases hpath
    | cons root rest =>
        have hroot := hall root List.mem_cons_self
        obtain ⟨slash, hslash⟩ : ∃ slash, root.idxOf? '/' = some slash := by
          rw [← Option.isSome_iff_exists, List.isSome_idxOf?]
          exact hroot.subset (by simp)
        have hfirst := take_slash_prefixes hslash hroot
        have hshared : rest ≠ [] ∧ (root :: rest).all (root.take (slash + 1)).isPrefixOf := by
          refine ⟨?_, List.all_eq_true.mpr fun path hp => ?_⟩
          · rintro rfl
            simp at hlen
          · exact List.isPrefixOf_iff_prefix.mpr (hfirst.trans (hall path hp))
        have hplan : SessionConfig.planContentLayout 2 name (root :: rest) =
            ((root :: rest).map (·.drop (slash + 1))).zipIdx.map Prod.swap := by
          simp only [SessionConfig.planContentLayout, hslash, if_true]
          rw [if_pos hshared]
        have hlookup := lookup_zipIdx ((root :: rest).map (·.drop (slash + 1))) 0 i
        rw [Nat.zero_add, ← hplan, List.getElem?_map, hpath] at hlookup
        obtain ⟨tail, rfl⟩ := hfirst.trans (hall path (List.mem_of_getElem? hpath))
        refine ⟨_, hlookup, .inl ⟨root.take slash, ?_⟩⟩
        have hlt := (List.idxOf?_eq_some_iff.mp hslash).1
        have hdrop : (root.take (slash + 1) ++ tail).drop (slash + 1) = tail :=
          List.drop_left' (by rw [List.length_take]; omega)
        dsimp only
        rw [hdrop, take_slash hslash, List.append_assoc]
        rfl
  · have hplan : SessionConfig.planContentLayout 1 name [root] = [(0, name ++ '/' :: root)] := by
      simp [SessionConfig.planContentLayout, hslash]
    cases i with
    | zero =>
        obtain rfl := Option.some.inj hpath
        exact ⟨name ++ '/' :: root, by rw [hplan]; rfl, .inr ⟨name, rfl⟩⟩
    | succ i => cases hpath

end Plans

section Names

variable (c : Settings) (ti : TorrentInfo) (priorities : List UInt8)

-- A file by its place, with its path.
def At (i : Nat) (path : Text) : Prop := (filePaths ti)[i]? = some path

instance (i : Nat) (path : Text) : Decidable (At ti i path) :=
  inferInstanceAs (Decidable ((filePaths ti)[i]? = some path))

def plannedName (layout : Int) (i : Nat) (path : Text) : Text :=
  ((SessionConfig.planContentLayout layout ti.name (filePaths ti)).lookup i).getD path

def added : AddTorrentParams := ⟨some ti, fun _ => none, priorities⟩

theorem renamedFiles_layout (layout : Int) (i : Nat) :
    ((added ti priorities).applyContentLayout layout).renamedFiles i =
      (SessionConfig.planContentLayout layout ti.name (filePaths ti)).lookup i := by
  simp only [AddTorrentParams.applyContentLayout, added]
  split_ifs with hzero
  · subst hzero
    have hnil : SessionConfig.planContentLayout 0 ti.name (filePaths ti) = [] := by
      unfold SessionConfig.planContentLayout
      split <;> rfl
    rw [hnil]
    rfl
  · rw [renamedFiles_foldl _ _ (nodup_plan _ _ _), Option.or_none]

-- What the three passes leave a file under.
theorem names_prepare (i : Nat) : ((added ti priorities).prepare c).names[i]? =
    ((filePaths ti)[i]?).map fun path =>
      if withIncompleteSuffix path = path then plannedName ti c.contentLayout i path
      else withIncompleteSuffix path := by
  have hti : (((added ti priorities).applyContentLayout c.contentLayout).applyExcludedPatterns c).ti =
      some ti := by
    rw [(applyExcludedPatterns_names _ c).1, ti_applyContentLayout]
    rfl
  have hrenamed := (applyExcludedPatterns_names
    ((added ti priorities).applyContentLayout c.contentLayout) c).2
  unfold AddTorrentParams.prepare
  generalize ((added ti priorities).applyContentLayout c.contentLayout).applyExcludedPatterns c = atp
    at hti hrenamed ⊢
  have hsuffixed : atp.applyIncompleteSuffix = (filePaths ti).zipIdx.foldl AddTorrentParams.suffixFile atp := by
    simp only [AddTorrentParams.applyIncompleteSuffix, hti]
  have hkept : atp.applyIncompleteSuffix.ti = some ti := by
    rw [hsuffixed, ti_foldl _ _ _ ti_suffixFile, hti]
  simp only [AddTorrentParams.names, hkept, List.getElem?_map, List.getElem?_zipIdx]
  cases hpath : (filePaths ti)[i]? with
  | none => rfl
  | some path =>
      have hname := renamedFiles_suffix_foldl atp (filePaths ti) 0 i path hpath
      rw [← hsuffixed, Nat.zero_add, hrenamed, renamedFiles_layout] at hname
      simp only [Option.map_some, Nat.zero_add, hname]
      split_ifs
      · rfl
      · rfl

end Names

section Layout

variable (c : Settings) (ti : TorrentInfo) (priorities : List UInt8) {i : Nat} {path : Text}

theorem withIncompleteSuffix_eq_iff : withIncompleteSuffix path = path ↔ kIncompleteSuffix <:+ path := by
  unfold withIncompleteSuffix
  split_ifs with h
  · simp [h]
  · have hne : path ++ kIncompleteSuffix ≠ path := by simp [kIncompleteSuffix]
    simp [h, hne]

theorem strip_append (base : Text) : stripIncompleteSuffix (base ++ kIncompleteSuffix) = some base := by
  unfold stripIncompleteSuffix
  rw [if_pos (List.suffix_append _ _)]
  simp [kIncompleteSuffix]

-- A folder before a name, or taken from it, changes nothing about the name's suffix.
theorem suffix_of_folder {folder name : Text} (h : kIncompleteSuffix <:+ folder ++ '/' :: name) :
    kIncompleteSuffix <:+ name := by
  have htail : '/' :: name <:+ folder ++ '/' :: name := List.suffix_append _ _
  rcases List.suffix_or_suffix_of_suffix h htail with hin | hout
  · rcases List.suffix_cons_iff.mp hin with heq | hname
    · cases heq
    · exact hname
  · have hslash : '/' ∈ kIncompleteSuffix := hout.subset List.mem_cons_self
    exact absurd hslash (by decide)

-- Each file is under its planned name with the suffix, files with different paths are apart, and a file
-- that is complete goes by its planned name.
structure LayoutKept : Prop where
  named : ∀ i path, At ti i path → ((added ti priorities).prepare c).names[i]? =
    some (withIncompleteSuffix (plannedName ti c.contentLayout i path))
  apart : ∀ i j path path', At ti i path → At ti j path' → path ≠ path' →
    ((added ti priorities).prepare c).names[i]? ≠ ((added ti priorities).prepare c).names[j]?
  completed : ∀ i path, At ti i path →
    (onFileCompleted ((added ti priorities).prepare c).names i)[i]? =
      some (plannedName ti c.contentLayout i path)

theorem getElem?_onFileCompleted {names : List Text} {name : Text} (h : names[i]? = some name) :
    (onFileCompleted names i)[i]? = some ((stripIncompleteSuffix name).getD name) := by
  unfold onFileCompleted
  rw [h, Option.bind_some]
  cases hstrip : stripIncompleteSuffix name with
  | none => exact h
  | some stripped =>
      have hlt := (List.getElem?_eq_some_iff.mp h).1
      simp [hlt]

-- A file that has the suffix by its own name keeps its planned one, which then has it too.
theorem suffix_planned (hsuffix : kIncompleteSuffix <:+ path) (hat : At ti i path) :
    kIncompleteSuffix <:+ plannedName ti c.contentLayout i path := by
  unfold plannedName
  by_cases hrelaid : Relaid c.contentLayout (filePaths ti)
  · obtain ⟨other, hother, ⟨folder, rfl⟩ | ⟨folder, rfl⟩⟩ := lookup_of_relaid ti.name hrelaid hat
    · rw [hother]
      exact suffix_of_folder hsuffix
    · rw [hother]
      exact hsuffix.trans ((List.suffix_cons _ _).trans (List.suffix_append _ _))
  · rw [plan_of_not_relaid hrelaid]
    exact hsuffix

-- A file without the suffix gets it after its own path.
theorem name_of_plain (hat : At ti i path) (hplain : ¬ kIncompleteSuffix <:+ path) :
    ((added ti priorities).prepare c).names[i]? = some (path ++ kIncompleteSuffix) := by
  have hpath : (filePaths ti)[i]? = some path := hat
  rw [names_prepare, hpath, Option.map_some,
    if_neg (fun heq => hplain (withIncompleteSuffix_eq_iff.mp heq)), withIncompleteSuffix, if_neg hplain]

theorem layoutKept_iff : LayoutKept c ti priorities ↔
    ¬ Relaid c.contentLayout (filePaths ti) ∧ ∀ path ∈ filePaths ti, ¬ kIncompleteSuffix <:+ path := by
  constructor
  · rintro ⟨-, -, hcompleted⟩
    -- A complete file loses a suffix that its planned name has.
    have hplain : ∀ i path, At ti i path → ¬ kIncompleteSuffix <:+ path := by
      intro i path hat hsuffix
      obtain ⟨base, hbase⟩ := suffix_planned c ti hsuffix hat
      have hname : ((added ti priorities).prepare c).names[i]? =
          some (plannedName ti c.contentLayout i path) := by
        have hpath : (filePaths ti)[i]? = some path := hat
        rw [names_prepare, hpath, Option.map_some, if_pos (withIncompleteSuffix_eq_iff.mpr hsuffix)]
      have hdone := hcompleted i path hat
      rw [getElem?_onFileCompleted hname, ← hbase, strip_append] at hdone
      have hlen := congrArg List.length (Option.some.inj hdone)
      simp [kIncompleteSuffix] at hlen
    refine ⟨fun hrelaid => ?_, fun path hpath => ?_⟩
    · have hne : filePaths ti ≠ [] := by
        rintro hnil
        rw [hnil] at hrelaid
        rcases hrelaid with ⟨-, hlen, -⟩ | ⟨-, path, hlone, -⟩
        · simp at hlen
        · cases hlone
      obtain ⟨path, rest, hpaths⟩ := List.exists_cons_of_ne_nil hne
      have hat : At ti 0 path := by simp [At, hpaths]
      have hname := name_of_plain c ti priorities hat (hplain 0 path hat)
      have hdone := hcompleted 0 path hat
      obtain ⟨other, hother, hshape⟩ := lookup_of_relaid ti.name hrelaid hat
      rw [getElem?_onFileCompleted hname, strip_append, plannedName, hother] at hdone
      have hsame : path = other := Option.some.inj hdone
      subst hsame
      obtain ⟨folder, hfolder⟩ | ⟨folder, hfolder⟩ := hshape
      · have hlen := congrArg List.length hfolder
        simp at hlen
        omega
      · have hlen := congrArg List.length hfolder
        simp at hlen
        omega
    · obtain ⟨i, hat⟩ := List.mem_iff_getElem?.mp hpath
      exact hplain i path hat
  · rintro ⟨hrelaid, hplain⟩
    have hname : ∀ i path, At ti i path → ((added ti priorities).prepare c).names[i]? =
        some (path ++ kIncompleteSuffix) :=
      fun i path hat => name_of_plain c ti priorities hat (hplain path (List.mem_of_getElem? hat))
    have hplanned : ∀ i path, plannedName ti c.contentLayout i path = path := by
      intro i path
      rw [plannedName, plan_of_not_relaid hrelaid]
      rfl
    refine ⟨?_, ?_, ?_⟩
    · intro i path hat
      rw [hname i path hat, hplanned, withIncompleteSuffix, if_neg (hplain path (List.mem_of_getElem? hat))]
    · intro i j path path' hat hat' hne heq
      rw [hname i path hat, hname j path' hat'] at heq
      exact hne (List.append_cancel_right (Option.some.inj heq))
    · intro i path hat
      rw [getElem?_onFileCompleted (hname i path hat), strip_append, hplanned]
      rfl

-- Two files in one folder, with the layout that drops it: they stay in it.
def sharedFolder : TorrentInfo where
  hashes := ⟨some (.replicate 20 1), none, by decide⟩
  name := ['r']
  files := [⟨"r/a".toList, 1⟩, ⟨"r/b".toList, 1⟩]

theorem not_layoutKept : ¬ LayoutKept ⟨2, [], fun _ => none⟩ sharedFolder [] := by
  intro h
  have hname := h.named 0 "r/a".toList (by decide +kernel)
  exact absurd hname (by decide +kernel)

end Layout

end BATorrent.ContentLayout
