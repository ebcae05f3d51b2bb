import BATorrent.Services.SettingsBackup
import BATorrent.Lib.PathParts

namespace BATorrent.SettingsBridge

open Lib.DataStream (Bytes)
open SettingsBackup (Text)

-- What Qt and the machine bring: how bytes are read as text and as a JSON object, the AppData folder,
-- and which paths can be opened for writing.
structure Platform (V : Type) where
  fromUtf8 : Bytes → Text
  object : Bytes → List (Text × V)
  base : Text
  opens : Text → Bool

inductive Out (V : Type) where
  | mkpath (path : Text)
  | setValue (key : Text) (value : V)
  | wrote (path : Text) (contents : Bytes)

inductive Result where
  | restoreFailed
  | badFormat
  | restoreDone (restored : Nat)
deriving DecidableEq

def settingsJson : Text := "settings.json".toList

def resumePrefix : Text := "resume/".toList

def kHistoryFiles : List Text := ["achievements.json".toList, "playlog.json".toList]

section Restore

variable {V : Type} (os : Platform V)

-- An entry that is a file, of a torrent or of the history.
def isFile (name : Text) : Bool := resumePrefix.isPrefixOf name || kHistoryFiles.contains name

def restoreEntries : Nat → List (Text × Bytes) → Nat × List (Out V)
  | restored, [] => (restored, [])
  | restored, (name, contents) :: rest =>
      if name = settingsJson then
        let (restored, outs) := restoreEntries (restored + 1) rest
        (restored, (os.object contents).map (fun entry => .setValue entry.1 entry.2) ++ outs)
      else if isFile name && os.opens (os.base ++ '/' :: name) then
        let (restored, outs) := restoreEntries (restored + 1) rest
        (restored, .wrote (os.base ++ '/' :: name) contents :: outs)
      else restoreEntries restored rest

-- The file that is given, none where it does not open.
def fullRestore (file : Option Bytes) : Result × List (Out V) :=
  match file with
  | none => (.restoreFailed, [])
  | some data =>
      match SettingsBackup.unpack os.fromUtf8 data with
      | none => (.badFormat, [])
      | some entries =>
          let (restored, outs) := restoreEntries os 0 entries
          (.restoreDone restored, .mkpath (os.base ++ "/resume".toList) :: outs)

end Restore

open Lib.PathParts
open Lib.ByteText (ascii)

-- Windows takes the backslash too.
def isSep (windows : Bool) (c : Char) : Bool := c = '/' || windows && c = '\\'

def place (windows : Bool) (path : Text) : List Text := walk [] (parts (isSep windows) path)

-- A path that leads to a file directly in the resume folder, or to a history file.
def Belongs (windows : Bool) (base path : Text) : Prop :=
  (∃ leaf, place windows path = place windows base ++ ["resume".toList, leaf]) ∨
    ∃ file ∈ kHistoryFiles, place windows path = place windows base ++ [file]

-- A name that leads to such a file from any folder, and never out of the folder on the way.
def Lands (windows : Bool) (name : Text) : Prop :=
  ∃ there, descend [] (parts (isSep windows) name) = some there ∧
    ((∃ leaf, there = ["resume".toList, leaf]) ∨ ∃ file ∈ kHistoryFiles, there = [file])

-- A name that leads to the resume folder or to one above it, where no file can be.
def LeadsNowhere (windows : Bool) (name : Text) : Prop :=
  (∃ there, descend [] (parts (isSep windows) name) = some there ∧ there <+: ["resume".toList]) ∨
    descend [] (parts (isSep windows) name) = none ∧ walk [] (parts (isSep windows) name) = []

-- What can be opened for writing is not the resume folder or one above it.
def OpensFiles (windows : Bool) (base : Text) (opens : Text → Bool) : Prop :=
  ∀ path, opens path = true → ¬ place windows path <+: place windows base ++ ["resume".toList]

-- Wherever the AppData folder is, and whatever files can be opened.
def Harmless {V : Type} (windows : Bool) (fromUtf8 : Bytes → Text) (object : Bytes → List (Text × V))
    (data : Bytes) : Prop :=
  ∀ base opens, OpensFiles windows base opens →
    ∀ path contents, .wrote path contents ∈ (fullRestore ⟨fromUtf8, object, base, opens⟩ (some data)).2 →
      Belongs windows base path

variable {V : Type} {windows : Bool}

theorem mem_restoreEntries {os : Platform V} {restored : Nat} {entries : List (Text × Bytes)}
    {path : Text} {contents : Bytes} :
    .wrote path contents ∈ (restoreEntries os restored entries).2 ↔
      ∃ name, (name, contents) ∈ entries ∧ name ≠ settingsJson ∧ isFile name = true ∧
        path = os.base ++ '/' :: name ∧ os.opens path = true := by
  induction entries generalizing restored with
  | nil => simp [restoreEntries]
  | cons entry rest ih =>
      obtain ⟨name, bytes⟩ := entry
      rw [restoreEntries]
      split_ifs with hsettings hfile
      · simp only [List.mem_append, List.mem_map, reduceCtorEq, and_false, exists_false, false_or, ih,
          List.mem_cons, Prod.mk.injEq]
        constructor
        · rintro ⟨other, hin, hrest⟩
          exact ⟨other, .inr hin, hrest⟩
        · rintro ⟨other, ⟨rfl, rfl⟩ | hin, hne, hrest⟩
          · exact absurd hsettings hne
          · exact ⟨other, hin, hne, hrest⟩
      · simp only [List.mem_cons, Out.wrote.injEq, ih, Prod.mk.injEq]
        obtain ⟨hkind, hopens⟩ := Bool.and_eq_true_iff.mp hfile
        constructor
        · rintro (⟨rfl, rfl⟩ | ⟨other, hin, hrest⟩)
          · exact ⟨name, .inl ⟨rfl, rfl⟩, hsettings, hkind, rfl, hopens⟩
          · exact ⟨other, .inr hin, hrest⟩
        · rintro ⟨other, ⟨rfl, rfl⟩ | hin, hrest⟩
          · exact .inl ⟨hrest.2.2.1, rfl⟩
          · exact .inr ⟨other, hin, hrest⟩
      · simp only [ih, List.mem_cons, Prod.mk.injEq]
        constructor
        · rintro ⟨other, hin, hrest⟩
          exact ⟨other, .inr hin, hrest⟩
        · rintro ⟨other, ⟨rfl, rfl⟩ | hin, hne, hkind, rfl, hopens⟩
          · exact absurd (Bool.and_eq_true_iff.mpr ⟨hkind, hopens⟩) hfile
          · exact ⟨other, hin, hne, hkind, rfl, hopens⟩

theorem place_join (base name : Text) :
    place windows (base ++ '/' :: name) = walk (place windows base) (parts (isSep windows) name) := by
  unfold place
  rw [parts_join (by rfl), walk_append]

theorem belongs_of_lands {name : Text} (h : Lands windows name) (base : Text) :
    Belongs windows base (base ++ '/' :: name) := by
  obtain ⟨there, hdescend, hplace⟩ := h
  have hwalk : place windows (base ++ '/' :: name) = place windows base ++ there := by
    have hfolder := walk_of_descend (place windows base) hdescend
    rwa [List.append_nil, ← place_join] at hfolder
  unfold Belongs
  rw [hwalk]
  rcases hplace with ⟨leaf, rfl⟩ | ⟨file, hfile, rfl⟩
  · exact .inl ⟨leaf, rfl⟩
  · exact .inr ⟨file, hfile, rfl⟩

theorem not_opens_of_leadsNowhere {base name : Text} {opens : Text → Bool}
    (h : LeadsNowhere windows name) (hopens : OpensFiles windows base opens) :
    opens (base ++ '/' :: name) ≠ true := by
  intro hopen
  refine hopens _ hopen ?_
  rw [place_join]
  rcases h with ⟨there, hdescend, hprefix⟩ | ⟨-, hwalk⟩
  · have hfolder := walk_of_descend (place windows base) hdescend
    rw [List.append_nil] at hfolder
    rw [hfolder]
    exact (List.prefix_append_right_inj _).mpr hprefix
  · obtain ⟨left, hleft, hfolder⟩ := exists_walk (place windows base) [] (parts (isSep windows) name)
    rw [List.append_nil, hwalk, List.append_nil] at hfolder
    rw [hfolder]
    exact hleft.trans (List.prefix_append _ _)

-- A folder with a name that is nowhere in the way shows where the way leads from any folder.
theorem lands_of_belongs {name : Text}
    (h : ∀ base, ¬ place windows (base ++ '/' :: name) <+: place windows base ++ ["resume".toList] →
      Belongs windows base (base ++ '/' :: name)) : Lands windows name ∨ LeadsNowhere windows name := by
  obtain ⟨n, hn, hfresh⟩ := exists_fresh 'z' (parts (isSep windows) name)
  have hlength : ∀ small : Text, small.length < 3 → List.replicate n 'z' ≠ small := by
    rintro small hsmall rfl
    rw [List.length_replicate] at hsmall
    omega
  have hbase : place windows (List.replicate n 'z') = [List.replicate n 'z'] := by
    have hsep : isSep windows 'z' = false := by
      cases windows with
      | true => rfl
      | false => rfl
    unfold place
    rw [parts_of_name (fun c hc => (List.eq_of_mem_replicate hc) ▸ hsep) (hlength [] (by decide))
      (hlength dot (by decide)), walk_cons, if_neg (hlength dotdot (by decide))]
    rfl
  have hbelongs := h (List.replicate n 'z')
  unfold Belongs at hbelongs
  rw [place_join, hbase] at hbelongs
  cases hdescend : descend [] (parts (isSep windows) name) with
  | none =>
      have hout := not_mem_of_descend hdescend (List.not_mem_nil) hfresh
      by_cases hprefix : walk [List.replicate n 'z'] (parts (isSep windows) name) <+:
          [List.replicate n 'z'] ++ ["resume".toList]
      · refine .inr (.inr ⟨hdescend, ?_⟩)
        obtain ⟨left, hleft, hwalk⟩ :=
          exists_walk [List.replicate n 'z'] [] (parts (isSep windows) name)
        rw [List.append_nil] at hwalk
        rw [hwalk] at hprefix hout
        obtain ⟨more, hmore⟩ := hprefix
        cases hwhole : left ++ walk [] (parts (isSep windows) name) with
        | nil => exact (List.append_eq_nil_iff.mp hwhole).2
        | cons head rest =>
            rw [hwhole] at hmore hout
            exact absurd ((List.cons_eq_cons.mp hmore).1 ▸ List.mem_cons_self) hout
      · rcases hbelongs hprefix with ⟨leaf, hwalk⟩ | ⟨file, -, hwalk⟩
        · exact absurd (hwalk ▸ List.mem_append_left _ (List.mem_singleton_self _)) hout
        · exact absurd (hwalk ▸ List.mem_append_left _ (List.mem_singleton_self _)) hout
  | some there =>
      have hwalk := walk_of_descend [List.replicate n 'z'] hdescend
      rw [List.append_nil] at hwalk
      rw [hwalk, List.prefix_append_right_inj] at hbelongs
      by_cases hprefix : there <+: ["resume".toList]
      · exact .inr (.inl ⟨there, hdescend, hprefix⟩)
      · refine .inl ⟨there, hdescend, ?_⟩
        rcases hbelongs hprefix with ⟨leaf, heq⟩ | ⟨file, hfile, heq⟩
        · exact .inl ⟨leaf, List.append_cancel_left heq⟩
        · exact .inr ⟨file, hfile, List.append_cancel_left heq⟩

theorem lands_history {file : Text} (hfile : file ∈ kHistoryFiles) : Lands windows file := by
  have hall : (kHistoryFiles.all fun file => file.all fun c => !isSep windows c) = true := by
    cases windows with
    | true => rfl
    | false => rfl
  have hsep : ∀ c ∈ file, isSep windows c = false := fun c hc =>
    Bool.not_eq_true' _ |>.mp (List.all_eq_true.mp (List.all_eq_true.mp hall file hfile) c hc)
  have hname : ∀ file ∈ kHistoryFiles, file ≠ [] ∧ file ≠ dot ∧ file ≠ dotdot := by decide
  obtain ⟨hne, hdot, hdotdot⟩ := hname file hfile
  refine ⟨[file], ?_, .inr ⟨file, hfile, rfl⟩⟩
  rw [parts_of_name hsep hne hdot, descend, if_neg hdotdot]
  rfl

theorem mem_fullRestore {os : Platform V} {data : Bytes} {path : Text} {contents : Bytes} :
    .wrote path contents ∈ (fullRestore os (some data)).2 ↔
      ∃ entries, SettingsBackup.unpack os.fromUtf8 data = some entries ∧
        ∃ name, (name, contents) ∈ entries ∧ name ≠ settingsJson ∧ isFile name = true ∧
          path = os.base ++ '/' :: name ∧ os.opens path = true := by
  unfold fullRestore
  cases hunpack : SettingsBackup.unpack os.fromUtf8 data with
  | none => simp [hunpack]
  | some entries =>
      simp only [hunpack, List.mem_cons, reduceCtorEq, false_or, mem_restoreEntries,
        Option.some.injEq, exists_eq_left']

theorem harmless_iff (fromUtf8 : Bytes → Text) (object : Bytes → List (Text × V)) (data : Bytes) :
    Harmless windows fromUtf8 object data ↔
      ∀ entries, SettingsBackup.unpack fromUtf8 data = some entries →
        ∀ entry ∈ entries, resumePrefix <+: entry.1 →
          Lands windows entry.1 ∨ LeadsNowhere windows entry.1 := by
  constructor
  · rintro h entries hunpack ⟨name, contents⟩ hin hresume
    refine lands_of_belongs fun base hfile => ?_
    have hname : name ≠ settingsJson := by
      rintro rfl
      exact absurd (show resumePrefix <+: settingsJson from hresume) (by decide)
    have hkind : isFile name = true := by
      unfold isFile
      rw [List.isPrefixOf_iff_prefix.mpr hresume, Bool.true_or]
    exact h base (fun path => decide ¬ place windows path <+: place windows base ++ ["resume".toList])
      (fun path hopen => of_decide_eq_true hopen) _ contents
      (mem_fullRestore.mpr ⟨entries, hunpack, name, hin, hname, hkind, rfl, decide_eq_true hfile⟩)
  · rintro h base opens hfiles path contents hwrote
    obtain ⟨entries, hunpack, name, hin, -, hkind, rfl, hopen⟩ := mem_fullRestore.mp hwrote
    rcases Bool.or_eq_true_iff.mp hkind with hresume | hhistory
    · rcases h entries hunpack _ hin (List.isPrefixOf_iff_prefix.mp hresume) with hlands | hnowhere
      · exact belongs_of_lands hlands base
      · exact absurd hopen (not_opens_of_leadsNowhere hnowhere hfiles)
    · exact belongs_of_lands (lands_history (List.contains_iff_mem.mp hhistory)) base

-- The name of an entry, and a byte of contents.
def archive (name : Bytes) : Bytes :=
  SettingsBackup.kMagic ++ [1, 0, 0, 0] ++ [UInt8.ofNat name.length, 0, 0, 0] ++ name ++
    [1, 0, 0, 0, 0, 0, 0, 0] ++ [65]

theorem not_harmless : ¬ Harmless (V := Nat) false (·.map fun byte => Char.ofNat byte.toNat)
    (fun _ => []) (archive (ascii "resume/../../../../.profile")) := by
  intro h
  let base := "/home/u/.local/share/BATorrent".toList
  let name := "resume/../../../../.profile".toList
  have hplace : place false (base ++ '/' :: name) =
      ["home".toList, "u".toList, ".profile".toList] := by decide +kernel
  have hbase : place false base =
      ["home".toList, "u".toList, ".local".toList, "share".toList, "BATorrent".toList] := by
    decide +kernel
  have hfiles : OpensFiles false base (· = base ++ '/' :: name) := by
    intro path hopen
    rw [of_decide_eq_true hopen, hplace, hbase]
    decide
  have hunpack : SettingsBackup.unpack (·.map fun byte => Char.ofNat byte.toNat)
      (archive (ascii "resume/../../../../.profile")) = some [(name, [65])] := by decide +kernel
  have hbelongs := h base _ hfiles _ [65] (mem_fullRestore.mpr
    ⟨_, hunpack, name, List.mem_singleton_self _, by decide +kernel, by decide +kernel, rfl,
      by decide +kernel⟩)
  unfold Belongs at hbelongs
  rw [hplace, hbase] at hbelongs
  rcases hbelongs with ⟨leaf, heq⟩ | ⟨file, -, heq⟩
  · exact absurd (congrArg List.length heq) (by simp)
  · exact absurd (congrArg List.length heq) (by simp)

end BATorrent.SettingsBridge
