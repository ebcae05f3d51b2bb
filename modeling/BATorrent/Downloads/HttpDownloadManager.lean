import BATorrent.Downloads.HttpDownload.Touched

namespace BATorrent.HttpDownloadManager

open Lib
open HttpDownload (Path Disk Io Saved)

abbrev Id := List Char

structure Item where
  id : Id
  urlValid : Bool
  download : HttpDownload.State

-- An entry of http.json.
structure Entry where
  id : Id
  urlValid : Bool
  saveDir : Path
  saved : Saved

-- All downloads share one disk. No id comes twice. `made` is the download that made each file, which
-- nothing in the program looks at.
structure State where
  disk : Disk
  items : List Item
  store : List Entry
  given : List Id
  made : Path → Option Id

inductive Event where
  | add (id : Id) (urlValid : Bool) (urlName saveDir fileName : Path)
  | step (id : Id) (e : HttpDownload.Event)
  | remove (id : Id) (deleteFiles : Bool)
  | save
  | load

-- What happens to a download apart from the manager's own calls.
def happens : HttpDownload.Event → Bool
  | .probeFinished _ _ => true
  | .headersArrive _ _ => true
  | .readyRead _ _ _ => true
  | .segmentFinished _ _ _ => true
  | .stalled => true
  | .pause => true
  | .resume _ => true
  | _ => false

-- Of the files that a step leaves, those that were not there before are its own.
def madeAfter (id : Id) (before after : Disk) (made : Path → Option Id) : Path → Option Id :=
  fun path => if (after path).isNone then none else if (before path).isNone then some id else made path

def downloadName (id : Id) (urlName fileName : Path) : Path :=
  if fileName ≠ [] then fileName
  else if urlName ≠ [] then urlName else "download-".toList ++ id

namespace State

variable (s : State)

def byId (id : Id) : Option Item := s.items.find? (·.id = id)

-- A download at work on the disk as it is.
def onDisk (item : Item) : HttpDownload.State := { item.download with disk := s.disk }

def replace (id : Id) (download : HttpDownload.State) : State :=
  { s with
    disk := download.disk
    items := s.items.map fun item => if item.id = id then { item with download := download } else item
    made := madeAfter id s.disk download.disk s.made }

-- A new download has no layout yet, so it probes and opens nothing.
def add (defaultDir : Path) (id : Id) (urlValid : Bool) (urlName saveDir fileName : Path) : State :=
  let dir := if saveDir = [] then defaultDir else saveDir
  let download := HttpDownload.create s.disk dir (downloadName id urlName fileName)
  let item : Item := ⟨id, urlValid, download⟩
  let started : State := { s with items := s.items ++ [item], given := id :: s.given }
  started.replace id (download.start { opens := false, written := 0, renames := false }).1

-- The partial goes with the download, and the file it was to become.
def remove (item : Item) (deleteFiles : Bool) : State :=
  let cancelled := (s.onDisk item).cancel deleteFiles
  let disk := if deleteFiles then cancelled.disk.set item.download.finalPath none else cancelled.disk
  { s with
    disk := disk
    items := s.items.eraseP (·.id = item.id)
    made := madeAfter item.id s.disk disk s.made }

def save : State :=
  { s with
    store := s.items.map fun item =>
      ⟨item.id, item.urlValid, item.download.saveDir, item.download.toState⟩ }

def load : State :=
  { s with
    items := (s.store.filter fun entry => entry.id ≠ [] && entry.urlValid).map fun entry =>
      ⟨entry.id, entry.urlValid,
        (HttpDownload.create s.disk entry.saveDir entry.saved.fileName).restoreState entry.saved⟩ }

def next (defaultDir : Path) : Event → Option State
  | .add id urlValid urlName saveDir fileName =>
      if id ∈ s.given then none else some (s.add defaultDir id urlValid urlName saveDir fileName)
  | .step id e =>
      if happens e then
        (s.byId id).bind fun item =>
          (HttpDownload.next (s.onDisk item) e).map fun result => s.replace id result.1
      else none
  | .remove id deleteFiles => some (((s.byId id).map fun item => s.remove item deleteFiles).getD s)
  | .save => some s.save
  | .load => some s.load

end State

def machine (disk : Disk) (defaultDir : Path) : Machine State Event Empty where
  init := { disk := disk, items := [], store := [], given := [], made := fun _ => none }
  next s e := (s.next defaultDir e).map fun s' => (s', [])

end BATorrent.HttpDownloadManager

namespace BATorrent.HttpDownloadManager

open Lib Machine
open HttpDownload (Path Disk Attached Acts)

-- A path without a file, or with one that this download made.
def Free (s : State) (id : Id) (path : Path) : Prop := s.disk path = none ∨ s.made path = some id

-- The paths a step is about to open, rename or remove are free.
def Allowed (s : State) : Event → Prop
  | .step id e => ∀ item, s.byId id = some item → ∀ path ∈ (s.onDisk item).touched e, Free s id path
  | .remove id true => ∀ item, s.byId id = some item →
      Free s id item.download.partPath ∧ Free s id item.download.finalPath
  | _ => True

def Event.actor : Event → Option Id
  | .add id _ _ _ _ => some id
  | .step id _ => some id
  | .remove id _ => some id
  | _ => none

-- What a step overwrites or deletes, its download made.
def Spares (r : Reaction State Event Empty) (s : State) : Prop :=
  ∀ path content, r.before.disk path = some content → s.disk path ≠ some content →
    ∃ id, r.event.actor = some id ∧ r.before.made path = some id

-- The .part file of a download: the one it holds open, or one it made that is still there.
def Uses (s : State) (item : Item) (path : Path) : Prop :=
  item.download.fileOpen = true ∧ item.download.openName = path ∨
    item.download.partPath = path ∧ s.disk path ≠ none ∧ s.made path = some item.id

def Apart (s : State) : Prop :=
  ∀ a ∈ s.items, ∀ b ∈ s.items, ∀ path, Uses s a path → Uses s b path → a.id = b.id

structure Owned (s : State) : Prop where
  ids : (s.items.map (·.id)).Nodup
  stored : (s.store.map (·.id)).Nodup
  given : ∀ item ∈ s.items, item.id ∈ s.given
  storedGiven : ∀ entry ∈ s.store, entry.id ∈ s.given
  stopped : ∀ entry ∈ s.store, entry.saved.phase ≠ .downloading
  kept : ∀ item ∈ s.items, Attached (s.onDisk item)
  made : ∀ item ∈ s.items, item.download.fileOpen = true →
    s.made item.download.openName = some item.id

section Step

variable {s : State} {item : Item}

theorem Owned.apart (h : Owned s) : Apart s := by
  have hmade : ∀ item ∈ s.items, ∀ path, Uses s item path → s.made path = some item.id := by
    rintro item hitem path (⟨hopen, rfl⟩ | ⟨-, -, hmade⟩)
    · exact h.made item hitem hopen
    · exact hmade
  intro a ha b hb path hua hub
  exact Option.some.inj ((hmade a ha path hua).symm.trans (hmade b hb path hub))

theorem not_isNone {β : Type} {o : Option β} (h : o.isSome = true) : ¬ o.isNone = true :=
  fun hnone => Option.isSome_iff_ne_none.mp h (Option.isNone_iff_eq_none.mp hnone)

theorem madeAfter_eq {id : Id} {before after : Disk} {made : Path → Option Id} {path : Path}
    (hthere : (after path).isSome) (hown : before path = none ∨ made path = some id) :
    madeAfter id before after made path = some id := by
  unfold madeAfter
  rw [if_neg (not_isNone hthere)]
  by_cases hbefore : (before path).isNone = true
  · rw [if_pos hbefore]
  · rw [if_neg hbefore]
    exact hown.resolve_left fun hnone => hbefore (by rw [hnone]; rfl)

theorem mem_of_byId {id : Id} (h : s.byId id = some item) : item ∈ s.items ∧ item.id = id :=
  ⟨List.mem_of_find?_eq_some h, by simpa using List.find?_some h⟩

-- A file that is open belongs to its download, so the paths that are free for another do not name it.
theorem Owned.not_free (h : Owned s) {other : Item} (hother : other ∈ s.items) {id : Id}
    (hne : other.id ≠ id) (hopen : other.download.fileOpen = true) :
    ¬ Free s id other.download.openName := by
  rintro (hnone | hmade)
  · have hthere := (h.kept other hother).there hopen
    change (s.disk other.download.openName).isSome = true at hthere
    rw [hnone] at hthere
    cases hthere
  · exact hne (Option.some.inj ((h.made other hother hopen).symm.trans hmade))

theorem owned_replace (h : Owned s) (hitem : item ∈ s.items) {download : HttpDownload.State}
    {paths : List Path} (hacts : Acts (s.onDisk item) download paths)
    (hfree : ∀ path ∈ paths, Free s item.id path) : Owned (s.replace item.id download) := by
  have hids : ((s.replace item.id download).items.map (·.id)) = s.items.map (·.id) := by
    unfold State.replace
    rw [List.map_map]
    refine List.map_congr_left fun other _ => ?_
    rw [Function.comp_apply]
    split_ifs <;> rfl
  have hmem : ∀ other ∈ (s.replace item.id download).items,
      other.id = item.id ∧ other.download = download ∨ other ∈ s.items ∧ other.id ≠ item.id := by
    intro other hother
    obtain ⟨old, hold, rfl⟩ := List.mem_map.mp hother
    split_ifs with hid
    · exact .inl ⟨hid, rfl⟩
    · exact .inr ⟨hold, hid⟩
  have hdisk : ∀ other ∈ s.items, other.id ≠ item.id → other.download.fileOpen = true →
      download.disk other.download.openName = s.disk other.download.openName := by
    intro other hother hne hopen
    exact hacts.disk _ fun hin => h.not_free hother hne hopen (hfree _ hin)
  have hkept := hacts.kept (h.kept item hitem)
  refine ⟨hids ▸ h.ids, h.stored, ?_, h.storedGiven, h.stopped, ?_, ?_⟩
  · intro other hother
    have hin : other.id ∈ (s.replace item.id download).items.map (·.id) := List.mem_map_of_mem hother
    rw [hids] at hin
    obtain ⟨old, hold, heq⟩ := List.mem_map.mp hin
    exact heq ▸ h.given old hold
  · intro other hother
    rcases hmem other hother with ⟨-, rfl⟩ | ⟨hold, hne⟩
    · exact hkept
    · refine ⟨fun hopen => ?_, (h.kept other hold).running⟩
      exact (congrArg Option.isSome (hdisk other hold hne hopen)).trans ((h.kept other hold).there hopen)
  · intro other hother hopen
    rcases hmem other hother with ⟨hid, rfl⟩ | ⟨hold, hne⟩
    · rw [hid]
      refine madeAfter_eq (hkept.there hopen) ?_
      rcases hacts.opened hopen with ⟨hopen', hname⟩ | hin
      · rw [hname]
        exact .inr (h.made item hitem hopen')
      · exact hfree _ hin
    · have hthere := (h.kept other hold).there hopen
      change (s.disk other.download.openName).isSome = true at hthere
      change madeAfter item.id s.disk download.disk s.made _ = _
      unfold madeAfter
      rw [if_neg (by rw [hdisk other hold hne hopen]; exact not_isNone hthere),
        if_neg (not_isNone hthere)]
      exact h.made other hold hopen

theorem spares_of_free {id : Id} {disk : Disk} {paths : List Path}
    (hdisk : ∀ path ∉ paths, disk path = s.disk path) (hfree : ∀ path ∈ paths, Free s id path)
    {path : Path} {content : HttpDownload.Bytes} (hbefore : s.disk path = some content)
    (hafter : disk path ≠ some content) : s.made path = some id := by
  have hin : path ∈ paths := by
    by_contra hout
    exact hafter ((hdisk path hout).trans hbefore)
  refine (hfree path hin).resolve_left fun hnone => ?_
  rw [hnone] at hbefore
  cases hbefore

-- Each thing that happens to a download touches its paths, and otherwise the file it has open.
theorem acts_next {d d' : HttpDownload.State} {e : HttpDownload.Event} {out : List HttpDownload.Out}
    (he : happens e = true) (hk : Attached d) (hnext : HttpDownload.next d e = some (d', out)) :
    ∃ paths, Acts d d' paths ∧
      ∀ path ∈ paths, path ∈ d.touched e ∨ d.fileOpen = true ∧ path = d.openName := by
  have hgone : d.gone = false := by
    by_contra hgone
    cases e <;> simp_all [happens, HttpDownload.next]
  have hleft : ∀ {e}, ∀ path ∈ d.touched e, path ∈ d.touched e ∨ d.fileOpen = true ∧ path = d.openName :=
    fun _ => .inl
  have hempty : ∀ path ∈ ([] : List Path), path ∈ d.touched e ∨ d.fileOpen = true ∧ path = d.openName :=
    fun _ hp => absurd hp List.not_mem_nil
  have hresult : ∀ {result : HttpDownload.State × List HttpDownload.Out},
      some result = some (d', out) → d' = result.1 :=
    fun h => (congrArg Prod.fst (Option.some.inj h)).symm
  cases e with
  | probeFinished p io =>
      rw [HttpDownload.next, hgone, if_neg Bool.false_ne_true] at hnext
      split_ifs at hnext
      rw [hresult hnext]
      exact ⟨_, HttpDownload.acts_probeFinished d p io, hleft⟩
  | headersArrive idx status =>
      rw [HttpDownload.next, hgone, if_neg Bool.false_ne_true] at hnext
      unfold HttpDownload.State.headersArrive at hnext
      split at hnext
      · split at hnext
        · split_ifs at hnext
          rw [hresult hnext]
          exact ⟨[], .of_frame rfl rfl rfl id, hempty⟩
        · cases hnext
      · cases hnext
  | readyRead idx chunk io =>
      rw [HttpDownload.next, hgone, if_neg Bool.false_ne_true] at hnext
      obtain ⟨⟨g, r⟩, -, hnext⟩ := Option.bind_eq_some_iff.mp hnext
      dsimp only at hnext
      split_ifs at hnext
      obtain ⟨paths, hacts, hopen⟩ := HttpDownload.acts_readyRead d idx g r chunk io
      rw [hresult hnext]
      exact ⟨paths, hacts, fun path hp => .inr (hopen hk path hp)⟩
  | segmentFinished idx error io =>
      rw [HttpDownload.next, hgone, if_neg Bool.false_ne_true] at hnext
      obtain ⟨⟨g, r⟩, hreply, hfinished⟩ := Option.map_eq_some_iff.mp hnext
      have heq : d' = (d.onSegmentFinished idx g error io).1 := (congrArg Prod.fst hfinished).symm
      rw [heq]
      exact ⟨_, HttpDownload.acts_segmentFinished hreply error io, hleft⟩
  | stalled =>
      rw [HttpDownload.next, hgone, if_neg Bool.false_ne_true] at hnext
      split_ifs at hnext
      rw [hresult hnext]
      unfold HttpDownload.State.stalled
      split_ifs
      · exact ⟨[], HttpDownload.acts_fail d _, hempty⟩
      · exact ⟨[], .of_frame rfl rfl rfl id, hempty⟩
  | pause =>
      rw [HttpDownload.next, hgone, if_neg Bool.false_ne_true] at hnext
      rw [hresult hnext]
      unfold HttpDownload.State.pause
      split_ifs
      · exact ⟨[], .of_frame rfl rfl rfl nofun, hempty⟩
      · exact ⟨[], .refl d, hempty⟩
  | resume io =>
      rw [HttpDownload.next, hgone, if_neg Bool.false_ne_true] at hnext
      rw [hresult hnext]
      unfold HttpDownload.State.resume
      by_cases hidle : d.phase = .paused ∨ d.phase = .failed
      · rw [if_pos hidle]
        have htouched : d.touched (.resume io) = d.atStart io := if_pos hidle
        exact ⟨_, HttpDownload.acts_start d io, fun path hp => .inl (htouched ▸ hp)⟩
      · rw [if_neg hidle]
        exact ⟨[], .refl d, hempty⟩
  | start io => cases he
  | cancel deletePartial => cases he
  | save => cases he
  | restart => cases he

theorem owned_step (h : Owned s) {id : Id} {e : HttpDownload.Event} (he : happens e = true)
    (hbyId : s.byId id = some item) {d : HttpDownload.State} {out : List HttpDownload.Out}
    (hnext : HttpDownload.next (s.onDisk item) e = some (d, out))
    (hallowed : ∀ path ∈ (s.onDisk item).touched e, Free s id path) :
    Owned (s.replace id d) ∧ Spares ⟨s, .step id e, []⟩ (s.replace id d) := by
  obtain ⟨hitem, rfl⟩ := mem_of_byId hbyId
  obtain ⟨paths, hacts, hpaths⟩ := acts_next he (h.kept item hitem) hnext
  have hfree : ∀ path ∈ paths, Free s item.id path := by
    intro path hp
    rcases hpaths path hp with htouched | ⟨hopen, rfl⟩
    · exact hallowed path htouched
    · exact .inr (h.made item hitem hopen)
  refine ⟨owned_replace h hitem hacts hfree, fun path content hbefore hafter => ⟨item.id, rfl, ?_⟩⟩
  exact spares_of_free hacts.disk hfree hbefore hafter

theorem owned_started (h : Owned s) (hnew : item.id ∉ s.given) (hclosed : item.download.fileOpen = false)
    (hidle : item.download.phase ≠ .downloading) :
    Owned { s with items := s.items ++ [item], given := item.id :: s.given } where
  ids := by
    rw [List.map_append, List.nodup_append]
    refine ⟨h.ids, List.pairwise_singleton _ _, fun other hother new hnewId heq => ?_⟩
    obtain ⟨old, hold, rfl⟩ := List.mem_map.mp hother
    have hid : old.id = item.id := heq.trans (List.mem_singleton.mp hnewId)
    exact hnew (hid ▸ h.given old hold)
  stored := h.stored
  given := by
    intro other hother
    rcases List.mem_append.mp hother with hold | hlast
    · exact List.mem_cons_of_mem _ (h.given other hold)
    · rw [List.mem_singleton.mp hlast]
      exact List.mem_cons_self
  storedGiven entry hentry := List.mem_cons_of_mem _ (h.storedGiven entry hentry)
  stopped := h.stopped
  kept := by
    intro other hother
    rcases List.mem_append.mp hother with hold | hlast
    · exact ⟨(h.kept other hold).there, (h.kept other hold).running⟩
    · rw [List.mem_singleton.mp hlast]
      exact ⟨fun hopen => absurd (hclosed.symm.trans hopen) Bool.false_ne_true,
        fun hphase => absurd hphase hidle⟩
  made := by
    intro other hother hopen
    rcases List.mem_append.mp hother with hold | hlast
    · exact h.made other hold hopen
    · rw [List.mem_singleton.mp hlast, hclosed] at hopen
      cases hopen

-- A download that has just been added asks the server first.
theorem owned_add (h : Owned s) (defaultDir : Path) {id : Id} (hnew : id ∉ s.given) (urlValid : Bool)
    (urlName saveDir fileName : Path) :
    Owned (s.add defaultDir id urlValid urlName saveDir fileName) ∧
      (s.add defaultDir id urlValid urlName saveDir fileName).disk = s.disk := by
  unfold State.add
  dsimp only
  generalize hdownload : HttpDownload.create s.disk (if saveDir = [] then defaultDir else saveDir)
    (downloadName id urlName fileName) = download
  have hclosed : download.fileOpen = false := by rw [← hdownload]; rfl
  have hidle : download.phase ≠ .downloading := by rw [← hdownload]; nofun
  have hdisk : download.disk = s.disk := by rw [← hdownload]; rfl
  have htotal : download.total = -1 := by rw [← hdownload]; rfl
  generalize hio : ({ opens := false, written := 0, renames := false } : HttpDownload.Io) = io
  have hacts := HttpDownload.acts_start download io
  have hstart : download.atStart io = [] := by
    unfold HttpDownload.State.atStart
    rw [htotal]
    split_ifs with _ hlayout
    · rfl
    · exact absurd hlayout.1 (by decide)
    · rfl
  rw [hstart] at hacts
  have hitem : (⟨id, urlValid, download⟩ : Item) ∈ s.items ++ [⟨id, urlValid, download⟩] :=
    List.mem_append_right _ List.mem_cons_self
  have hfresh : (⟨id, urlValid, download⟩ : Item).id ∉ s.given := hnew
  have hstarted := owned_started h hfresh hclosed hidle
  refine ⟨owned_replace hstarted hitem ?_ fun _ hp => absurd hp List.not_mem_nil, ?_⟩
  · have honDisk : { download with disk := s.disk } = download := by rw [← hdisk]
    change Acts { download with disk := s.disk } _ []
    rw [honDisk]
    exact hacts
  · exact funext fun path => (hacts.disk path List.not_mem_nil).trans (congrFun hdisk path)

-- The paths that a removal may name.
def removed (item : Item) (deleteFiles : Bool) : List Path :=
  if deleteFiles then [item.download.partPath, item.download.finalPath] else []

theorem disk_remove {deleteFiles : Bool} {path : Path} (hp : path ∉ removed item deleteFiles) :
    (s.remove item deleteFiles).disk path = s.disk path := by
  cases deleteFiles with
  | false => rfl
  | true =>
      obtain ⟨hpart, hfinal⟩ := not_or.mp fun h => hp (List.mem_cons.mpr (h.imp_right List.mem_singleton.mpr))
      have hcancel : path ∉ (s.onDisk item).touched (.cancel true) := List.mem_singleton.not.mpr hpart
      exact (HttpDownload.Disk.set_of_ne _ _ hfinal).trans (HttpDownload.disk_cancel _ true hcancel)

theorem ne_of_mem_eraseP {items : List Item} {id : Id} (h : (items.map (·.id)).Nodup) {other : Item}
    (hother : other ∈ items.eraseP (·.id = id)) : other.id ≠ id := by
  induction items with
  | nil => cases hother
  | cons first rest ih =>
      obtain ⟨hfirst, hrest⟩ := List.nodup_cons.mp h
      by_cases hid : first.id = id
      · rw [List.eraseP_cons_of_pos (by simpa using hid)] at hother
        exact fun hsame => hfirst (List.mem_map.mpr ⟨other, hother, hsame.trans hid.symm⟩)
      · rw [List.eraseP_cons_of_neg (by simpa using hid)] at hother
        rcases List.mem_cons.mp hother with rfl | hother
        · exact hid
        · exact ih hrest hother

theorem owned_remove (h : Owned s) {deleteFiles : Bool}
    (hfree : ∀ path ∈ removed item deleteFiles, Free s item.id path) :
    Owned (s.remove item deleteFiles) ∧
      Spares ⟨s, .remove item.id deleteFiles, []⟩ (s.remove item deleteFiles) := by
  have hsub : (s.remove item deleteFiles).items.Sublist s.items := List.eraseP_sublist
  have hne : ∀ other ∈ (s.remove item deleteFiles).items, other ∈ s.items ∧ other.id ≠ item.id :=
    fun other hother => ⟨hsub.subset hother, ne_of_mem_eraseP h.ids hother⟩
  have hdisk : ∀ other ∈ s.items, other.id ≠ item.id → other.download.fileOpen = true →
      (s.remove item deleteFiles).disk other.download.openName = s.disk other.download.openName := by
    intro other hother hother' hopen
    exact disk_remove fun hin => h.not_free hother hother' hopen (hfree _ hin)
  refine ⟨⟨(hsub.map _).nodup h.ids, h.stored, fun other ho => h.given other (hsub.subset ho),
    h.storedGiven, h.stopped, fun other ho => ?_, fun other ho hopen => ?_⟩, ?_⟩
  · obtain ⟨hold, hother⟩ := hne other ho
    refine ⟨fun hopen => ?_, (h.kept other hold).running⟩
    exact (congrArg Option.isSome (hdisk other hold hother hopen)).trans ((h.kept other hold).there hopen)
  · obtain ⟨hold, hother⟩ := hne other ho
    have hthere := (h.kept other hold).there hopen
    change (s.disk other.download.openName).isSome = true at hthere
    change madeAfter item.id s.disk (s.remove item deleteFiles).disk s.made _ = _
    unfold madeAfter
    rw [if_neg (by rw [hdisk other hold hother hopen]; exact not_isNone hthere),
      if_neg (not_isNone hthere)]
    exact h.made other hold hopen
  · intro path content hbefore hafter
    exact ⟨item.id, rfl, spares_of_free (fun _ hp => disk_remove hp) hfree hbefore hafter⟩

theorem owned_save (h : Owned s) : Owned s.save where
  ids := h.ids
  stored := by
    have hids : (s.items.map fun item => (⟨item.id, item.urlValid, item.download.saveDir,
        item.download.toState⟩ : Entry)).map (·.id) = s.items.map (·.id) := by
      rw [List.map_map]
      rfl
    exact hids ▸ h.ids
  given := h.given
  storedGiven := by
    intro entry hentry
    obtain ⟨item, hitem, rfl⟩ := List.mem_map.mp hentry
    exact h.given item hitem
  stopped := by
    intro entry hentry
    obtain ⟨item, hitem, rfl⟩ := List.mem_map.mp hentry
    change (if item.download.phase = .completed then HttpDownload.Phase.completed else .paused) ≠ _
    split_ifs <;> nofun
  kept := h.kept
  made := h.made

-- What another run of the program takes up has no file open.
theorem owned_load (h : Owned s) : Owned s.load where
  ids := by
    have hids : (s.load.items.map (·.id)) =
        (s.store.filter fun entry => entry.id ≠ [] && entry.urlValid).map (·.id) := by
      unfold State.load
      rw [List.map_map]
      rfl
    rw [hids]
    exact (List.filter_sublist.map _).nodup h.stored
  stored := h.stored
  given := by
    intro item hitem
    obtain ⟨entry, hentry, rfl⟩ := List.mem_map.mp hitem
    exact h.storedGiven entry (List.mem_of_mem_filter hentry)
  storedGiven := h.storedGiven
  stopped := h.stopped
  kept := by
    intro item hitem
    obtain ⟨entry, hentry, rfl⟩ := List.mem_map.mp hitem
    exact ⟨nofun, fun hphase => absurd hphase (h.stopped entry (List.mem_of_mem_filter hentry))⟩
  made := by
    intro item hitem hopen
    obtain ⟨entry, hentry, rfl⟩ := List.mem_map.mp hitem
    cases hopen

theorem owned_next (h : Owned s) {defaultDir : Path} {e : Event} {s' : State}
    (hnext : s.next defaultDir e = some s') (hallowed : Allowed s e) :
    Owned s' ∧ Spares ⟨s, e, []⟩ s' := by
  have hkeeps : ∀ {e : Event} {t : State}, t.disk = s.disk → Spares ⟨s, e, []⟩ t :=
    fun hdisk path _ hbefore hafter => absurd ((congrFun hdisk path).trans hbefore) hafter
  cases e with
  | add id urlValid urlName saveDir fileName =>
      by_cases hnew : id ∈ s.given
      · rw [State.next, if_pos hnew] at hnext
        cases hnext
      · rw [State.next, if_neg hnew] at hnext
        cases hnext
        obtain ⟨hadded, hdisk⟩ := owned_add h defaultDir hnew urlValid urlName saveDir fileName
        exact ⟨hadded, hkeeps hdisk⟩
  | step id e =>
      by_cases he : happens e = true
      · rw [State.next, if_pos he] at hnext
        obtain ⟨item, hbyId, hstep⟩ := Option.bind_eq_some_iff.mp hnext
        obtain ⟨⟨d, out⟩, hd, rfl⟩ := Option.map_eq_some_iff.mp hstep
        exact owned_step h he hbyId hd (hallowed item hbyId)
      · rw [State.next, if_neg he] at hnext
        cases hnext
  | remove id deleteFiles =>
      cases hnext
      cases hbyId : s.byId id with
      | none => exact ⟨h, hkeeps rfl⟩
      | some item =>
          obtain ⟨-, rfl⟩ := mem_of_byId hbyId
          refine owned_remove h fun path hp => ?_
          cases deleteFiles with
          | false => cases hp
          | true =>
              obtain ⟨hpart, hfinal⟩ := hallowed item hbyId
              rcases List.mem_cons.mp hp with rfl | hp
              · exact hpart
              · exact List.mem_singleton.mp hp ▸ hfinal
  | save =>
      cases hnext
      exact ⟨owned_save h, hkeeps rfl⟩
  | load =>
      cases hnext
      exact ⟨owned_load h, hkeeps rfl⟩

end Step

theorem owned_init (disk : Disk) (defaultDir : Path) : Owned (machine disk defaultDir).init where
  ids := List.nodup_nil
  stored := List.nodup_nil
  given _ h := absurd h List.not_mem_nil
  storedGiven _ h := absurd h List.not_mem_nil
  stopped _ h := absurd h List.not_mem_nil
  kept _ h := absurd h List.not_mem_nil
  made _ h := absurd h List.not_mem_nil

def lone (content : Option HttpDownload.Bytes) : Disk :=
  fun path => if path = ['d', '/', 'x'] then content else none

end BATorrent.HttpDownloadManager
