import BATorrent.Lib.Text
import BATorrent.Services.MediaSniff

namespace BATorrent.MediaGuard

open Lib.DataStream (Bytes)
open MediaSniff

inductive Gate where
  | wait
  | allow
  | block
deriving DecidableEq

structure FileInfo where
  path : Text
  priority : Nat

-- What the engine and the disk answer while a file is admitted. In the split engine an answer that
-- does not come in time is an empty one.
structure Answers where
  torrentIndex : Int
  path : Text
  size : Int
  available : Int
  head : Option Bytes
  files : List FileInfo
  hash : Text

-- What is on record: the keys of the files that were cleared, and of the ones that were quarantined
-- each with its kind. The settings hold the quarantined ones.
structure Guard where
  cleared : List Text
  quarantined : List (Text × Text)
  saved : List (Text × Text)

inductive Out where
  | judged (key : Text) (verdict : Verdict)
  | pauseTorrent (torrentIndex : Int)
  | setFilePriority (torrentIndex fileIndex : Int) (priority : Nat)
  | renameFile (torrentIndex fileIndex : Int) (name : Text)
  | quarantined (hash : Text) (fileIndex : Int) (fileName kind : Text)
  | lureFound (hash : Text) (fileIndex : Int) (fileName : Text)
deriving DecidableEq

def kQuarantineSuffix : Text := ".quarantine".toList

section Model

variable (toLower : Text → Text)

def keyFor (infoHash : Text) (fileIndex : Int) : Text :=
  toLower infoHash ++ ':' :: Lib.Text.number fileIndex

def file? (files : List FileInfo) (fileIndex : Int) : Option FileInfo :=
  if fileIndex < 0 then none else files[fileIndex.toNat]?

def leafName (files : List FileInfo) (fileIndex : Int) : Text :=
  (file? files fileIndex).elim [] fun f =>
    chopped kQuarantineSuffix (chopped btSuffix (fileName f.path))

namespace Guard

def ofSaved (saved : List (Text × Text)) : Guard := ⟨[], saved, saved⟩

def isQuarantined (g : Guard) (key : Text) : Bool := g.quarantined.any fun entry => entry.1 = key

-- A file the engine does not list stays out of the record.
def quarantine (g : Guard) (key : Text) (fileIndex : Int) (kind : Kind) (a : Answers) :
    Guard × List Out :=
  match file? a.files fileIndex with
  | none => (g, [])
  | some file =>
      let rel := chopped btSuffix file.path
      let quarantined := (key, kindKey kind) :: g.quarantined.filter fun entry => entry.1 ≠ key
      ({ g with quarantined := quarantined, saved := quarantined },
        [.pauseTorrent a.torrentIndex, .setFilePriority a.torrentIndex fileIndex 0,
          .renameFile a.torrentIndex fileIndex (rel ++ kQuarantineSuffix),
          .quarantined a.hash fileIndex (fileName rel) (kindKey kind)])

def admitFile (g : Guard) (infoHash : Text) (fileIndex : Int) (a : Answers) : Gate × Guard × List Out :=
  let key := keyFor toLower infoHash fileIndex
  if g.isQuarantined key then (.block, g, [])
  else if key ∈ g.cleared then (.allow, g, [])
  else if a.torrentIndex < 0 then (.allow, g, [])
  else if a.path = [] || !isVideoName toLower a.path then (.allow, g, [])
  else
    let want := headWanted a.size
    if want ≤ 0 ∨ a.available < want then (.wait, g, [])
    else match a.head with
      | none => (.wait, g, [])
      | some bytes =>
          let head := bytes.take want.toNat
          let verdict := judge head a.size
          match verdict with
          | .needMore => (.wait, g, [.judged key verdict])
          | .disguised =>
              let (g, outs) := g.quarantine key fileIndex (identify head) a
              (.block, g, .judged key verdict :: outs)
          | .lure => (.allow, { g with cleared := g.cleared.insert key },
              [.judged key verdict, .lureFound infoHash fileIndex (leafName a.files fileIndex)])
          | .ok => (.allow, { g with cleared := g.cleared.insert key }, [.judged key verdict])

-- The videos of a torrent that is finished, from the file of that number on.
def admitFinished (infoHash : Text) (answers : Nat → Answers) :
    Guard → Nat → List FileInfo → Guard × List Out
  | g, _, [] => (g, [])
  | g, i, file :: rest =>
      if 0 < file.priority && isVideoName toLower file.path then
        let (_, g, outs) := g.admitFile toLower infoHash i (answers i)
        let (g, more) := admitFinished infoHash answers g (i + 1) rest
        (g, outs ++ more)
      else admitFinished infoHash answers g (i + 1) rest

def onTorrentFinished (g : Guard) (infoHash : Text) (torrentIndex : Int) (files : List FileInfo)
    (answers : Nat → Answers) : Guard × List Out :=
  if torrentIndex < 0 then (g, []) else g.admitFinished toLower infoHash answers 0 files

end Guard

end Model

end BATorrent.MediaGuard

namespace BATorrent.MediaGuard

open MediaSniff

variable {toLower : Text → Text} {g : Guard} {infoHash : Text} {fileIndex : Int} {a : Answers}
  {outs log : List Out} {key : Text}

-- The answers from which a file is judged to be something else than a video.
def Disguised (a : Answers) : Prop :=
  (a.head.any fun bytes => judge (bytes.take (headWanted a.size).toNat) a.size = .disguised) = true

-- Where a file is disguised, the engine lists it.
def Listed (fileIndex : Int) (a : Answers) : Prop :=
  Disguised a → 0 ≤ fileIndex ∧ fileIndex < a.files.length

-- What the record says of a file is what was judged.
structure Recorded (log : List Out) (g : Guard) : Prop where
  saved : g.saved = g.quarantined
  cleared : ∀ key ∈ g.cleared,
    (∃ verdict, verdict ≠ .needMore ∧ .judged key verdict ∈ log) ∧ g.isQuarantined key = false
  disguised : ∀ key, .judged key .disguised ∈ log → g.isQuarantined key = true

-- How a file is admitted or not.
inductive Admits (toLower : Text → Text) (g : Guard) (infoHash : Text) (fileIndex : Int) (a : Answers) :
    Gate → Guard → List Out → Prop where
  | held : Admits toLower g infoHash fileIndex a .block g []
  | known (hkey : keyFor toLower infoHash fileIndex ∈ g.cleared) :
      Admits toLower g infoHash fileIndex a .allow g []
  | unjudged (hquarantined : g.isQuarantined (keyFor toLower infoHash fileIndex) = false)
      (hcleared : keyFor toLower infoHash fileIndex ∉ g.cleared)
      (hanswers : ¬ (0 ≤ a.torrentIndex ∧ a.path ≠ [] ∧ isVideoName toLower a.path = true)) :
      Admits toLower g infoHash fileIndex a .allow g []
  | waits {outs : List Out} (houts : ∀ o ∈ outs, ∃ key, o = .judged key .needMore) :
      Admits toLower g infoHash fileIndex a .wait g outs
  | disguised (hcleared : keyFor toLower infoHash fileIndex ∉ g.cleared) (h : Disguised a) (kind : Kind) :
      Admits toLower g infoHash fileIndex a .block
        (g.quarantine (keyFor toLower infoHash fileIndex) fileIndex kind a).1
        (.judged (keyFor toLower infoHash fileIndex) .disguised ::
          (g.quarantine (keyFor toLower infoHash fileIndex) fileIndex kind a).2)
  | passed {verdict : Verdict} {outs : List Out}
      (hquarantined : g.isQuarantined (keyFor toLower infoHash fileIndex) = false)
      (hverdict : verdict = .ok ∨ verdict = .lure) (houts : ∀ o ∈ outs, ∀ key verdict, o ≠ .judged key verdict) :
      Admits toLower g infoHash fileIndex a .allow
        { g with cleared := g.cleared.insert (keyFor toLower infoHash fileIndex) }
        (.judged (keyFor toLower infoHash fileIndex) verdict :: outs)

variable (toLower g infoHash fileIndex a) in
theorem admits_admitFile :
    Admits toLower g infoHash fileIndex a (g.admitFile toLower infoHash fileIndex a).1
      (g.admitFile toLower infoHash fileIndex a).2.1 (g.admitFile toLower infoHash fileIndex a).2.2 := by
  unfold Guard.admitFile
  dsimp only
  split_ifs with hquarantined hcleared hindex hname hwant
  · exact .held
  · exact .known hcleared
  · exact .unjudged (by simpa using hquarantined) hcleared fun h => by omega
  · refine .unjudged (by simpa using hquarantined) hcleared ?_
    rintro ⟨-, hpath, hvideo⟩
    simp [hpath, hvideo] at hname
  · exact .waits (by simp)
  · cases hhead : a.head with
    | none => exact .waits (by simp)
    | some bytes =>
        dsimp only
        cases hverdict : judge (bytes.take (headWanted a.size).toNat) a.size with
        | needMore => exact .waits (by simp)
        | disguised =>
            refine .disguised hcleared ?_ _
            unfold Disguised
            rw [hhead, Option.any_some, decide_eq_true_eq]
            exact hverdict
        | lure => exact .passed (by simpa using hquarantined) (.inr rfl) (by simp)
        | ok => exact .passed (by simpa using hquarantined) (.inl rfl) (by simp)

theorem quarantine_out (kind : Kind) :
    ∀ o ∈ (g.quarantine key fileIndex kind a).2, ∀ key verdict, o ≠ .judged key verdict := by
  unfold Guard.quarantine
  cases file? a.files fileIndex with
  | none => simp
  | some file => simp

variable (g key) in
theorem quarantine_spec (kind : Kind) (hlisted : 0 ≤ fileIndex ∧ fileIndex < a.files.length) :
    (g.quarantine key fileIndex kind a).1.cleared = g.cleared ∧
      (g.quarantine key fileIndex kind a).1.saved = (g.quarantine key fileIndex kind a).1.quarantined ∧
      ∀ other, (g.quarantine key fileIndex kind a).1.isQuarantined other =
        (decide (key = other) || g.isQuarantined other) := by
  obtain ⟨file, hfile⟩ : ∃ file, file? a.files fileIndex = some file := by
    unfold file?
    rw [if_neg (by omega)]
    exact ⟨_, List.getElem?_eq_getElem (by omega)⟩
  unfold Guard.quarantine
  rw [hfile]
  refine ⟨rfl, rfl, fun other => ?_⟩
  simp only [Guard.isQuarantined, List.any_cons, List.any_filter]
  by_cases hother : key = other
  · simp [hother]
  · rw [decide_eq_false hother, Bool.false_or, Bool.false_or]
    congr 1
    funext entry
    by_cases hentry : entry.1 = other
    · simp [hentry, Ne.symm hother]
    · simp [hentry]

-- What was cleared stays so.
theorem Admits.cleared_mono {gate : Gate} {g' : Guard}
    (h : Admits toLower g infoHash fileIndex a gate g' outs) (hlisted : Listed fileIndex a) :
    ∀ key ∈ g.cleared, key ∈ g'.cleared := by
  cases h with
  | held => exact fun _ h => h
  | known => exact fun _ h => h
  | unjudged => exact fun _ h => h
  | waits => exact fun _ h => h
  | disguised _ hdisguised kind =>
      obtain ⟨hcleared, -, -⟩ := quarantine_spec g (keyFor toLower infoHash fileIndex) kind
        (hlisted hdisguised)
      exact fun key hkey => hcleared ▸ hkey
  | passed => exact fun key hkey => List.mem_insert_of_mem hkey

theorem Admits.recorded {gate : Gate} {g' : Guard}
    (h : Admits toLower g infoHash fileIndex a gate g' outs) (hlisted : Listed fileIndex a)
    (hrecorded : Recorded log g) : Recorded (outs ++ log) g' := by
  obtain ⟨hsaved, hcleared, hdisguised⟩ := hrecorded
  cases h with
  | held => exact ⟨hsaved, hcleared, hdisguised⟩
  | known => exact ⟨hsaved, hcleared, hdisguised⟩
  | unjudged => exact ⟨hsaved, hcleared, hdisguised⟩
  | waits houts =>
      refine ⟨hsaved, fun key hkey => ?_, fun key hkey => ?_⟩
      · obtain ⟨⟨verdict, hne, hjudged⟩, hfree⟩ := hcleared key hkey
        exact ⟨⟨verdict, hne, List.mem_append_right _ hjudged⟩, hfree⟩
      · rcases List.mem_append.mp hkey with hkey | hkey
        · obtain ⟨_, heq⟩ := houts _ hkey
          cases heq
        · exact hdisguised key hkey
  | disguised hnot h kind =>
      obtain ⟨hsame, hsaved', hquarantined⟩ := quarantine_spec g (keyFor toLower infoHash fileIndex) kind
        (hlisted h)
      refine ⟨hsaved', fun key hkey => ?_, fun key hkey => ?_⟩
      · rw [hsame] at hkey
        obtain ⟨⟨verdict, hne, hjudged⟩, hfree⟩ := hcleared key hkey
        refine ⟨⟨verdict, hne, List.mem_append_right _ hjudged⟩, ?_⟩
        have hother : keyFor toLower infoHash fileIndex ≠ key := fun heq => hnot (heq ▸ hkey)
        rw [hquarantined, hfree, decide_eq_false hother, Bool.or_false]
      · rw [hquarantined]
        rcases List.mem_cons.mp hkey with heq | hkey
        · cases heq
          simp
        · rcases List.mem_append.mp hkey with hkey | hkey
          · exact absurd rfl (quarantine_out kind _ hkey key .disguised)
          · rw [hdisguised key hkey, Bool.or_true]
  | @passed verdict outs hfree hverdict houts =>
      refine ⟨hsaved, fun key hkey => ?_, fun key hkey => ?_⟩
      · rcases List.mem_insert_iff.mp hkey with rfl | hkey
        · refine ⟨⟨verdict, ?_, List.mem_cons_self⟩, hfree⟩
          rcases hverdict with rfl | rfl
          · decide
          · decide
        · obtain ⟨⟨verdict, hne, hjudged⟩, hother⟩ := hcleared key hkey
          exact ⟨⟨verdict, hne, List.mem_append_right _ hjudged⟩, hother⟩
      · rcases List.mem_cons.mp hkey with heq | hkey
        · cases heq
          rcases hverdict with h | h
          · cases h
          · cases h
        · rcases List.mem_append.mp hkey with hkey | hkey
          · exact absurd rfl (houts _ hkey key .disguised)
          · exact hdisguised key hkey

theorem Recorded.congr {log' : List Out} (h : Recorded log g) (hlog : ∀ o, o ∈ log ↔ o ∈ log') :
    Recorded log' g := by
  refine ⟨h.saved, fun key hkey => ?_, fun key hkey => h.disguised key ((hlog _).mpr hkey)⟩
  obtain ⟨⟨verdict, hne, hjudged⟩, hfree⟩ := h.cleared key hkey
  exact ⟨⟨verdict, hne, (hlog _).mp hjudged⟩, hfree⟩

theorem admitFinished_recorded {answers : Nat → Answers} (files : List FileInfo) (i : Nat)
    (hlisted : ∀ j : Nat, j < i + files.length → Listed j (answers j)) (h : Recorded log g) :
    Recorded ((g.admitFinished toLower infoHash answers i files).2 ++ log)
        (g.admitFinished toLower infoHash answers i files).1 ∧
      ∀ key ∈ g.cleared, key ∈ (g.admitFinished toLower infoHash answers i files).1.cleared := by
  induction files generalizing g log i with
  | nil => exact ⟨h, fun _ h => h⟩
  | cons file rest ih =>
      rw [List.length_cons] at hlisted
      have hnow := hlisted i (by omega)
      have hlater : ∀ j : Nat, j < i + 1 + rest.length → Listed j (answers j) :=
        fun j hj => hlisted j (by omega)
      rw [Guard.admitFinished]
      split_ifs
      · have hadmits := admits_admitFile toLower g infoHash i (answers i)
        obtain ⟨hrest, hmono⟩ := ih (i + 1) hlater (hadmits.recorded hnow h)
        refine ⟨hrest.congr fun o => ?_, fun key hkey => hmono key (hadmits.cleared_mono hnow key hkey)⟩
        simp only [List.mem_append]
        tauto
      · exact ih (i + 1) hlater h

variable (toLower infoHash) in
theorem onTorrentFinished_recorded {answers : Nat → Answers} {files : List FileInfo}
    (torrentIndex : Int) (hlisted : ∀ i : Nat, i < files.length → Listed i (answers i))
    (h : Recorded log g) :
    Recorded ((g.onTorrentFinished toLower infoHash torrentIndex files answers).2 ++ log)
        (g.onTorrentFinished toLower infoHash torrentIndex files answers).1 ∧
      ∀ key ∈ g.cleared,
        key ∈ (g.onTorrentFinished toLower infoHash torrentIndex files answers).1.cleared := by
  unfold Guard.onTorrentFinished
  split_ifs
  · exact ⟨h, fun _ h => h⟩
  · exact admitFinished_recorded files 0 (by simpa using hlisted) h

end BATorrent.MediaGuard
