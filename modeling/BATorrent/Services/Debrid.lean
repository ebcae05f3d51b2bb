import BATorrent.Lib.Run
import BATorrent.Lib.Text

namespace BATorrent.Debrid

open Lib

abbrev Text := List Char

def kMaxPolls : Nat := 400

section Pick

def videoSuffixes : List Text :=
  [".mp4".toList, ".mkv".toList, ".avi".toList, ".mov".toList, ".wmv".toList, ".m4v".toList,
    ".webm".toList, ".flv".toList, ".mpg".toList, ".mpeg".toList, ".ts".toList, ".m2ts".toList]

-- Letters are lowered by Qt.
variable (toLower : Text → Text)

def looksLikeVideo (path : Text) : Bool := videoSuffixes.any fun e => e.isSuffixOf (toLower path)

structure RealDebridFile where
  selected : Int
  bytes : Int
  path : Text

structure TorBoxFile where
  id : Int
  size : Int
  name : Text

-- The largest video and the largest file so far, with where they are and what they are called.
structure Picked where
  bestVideo : Int
  bestVideoBytes : Int
  bestVideoName : Text
  bestAny : Int
  bestAnyBytes : Int
  bestAnyName : Text

def Picked.init : Picked := ⟨-1, -1, [], -1, -1, []⟩

def Picked.look (p : Picked) (idx bytes : Int) (name : Text) : Picked :=
  let p :=
    if p.bestAnyBytes < bytes then { p with bestAnyBytes := bytes, bestAny := idx, bestAnyName := name } else p
  if looksLikeVideo toLower name && p.bestVideoBytes < bytes then
    { p with bestVideoBytes := bytes, bestVideo := idx, bestVideoName := name }
  else p

-- The links of Real-Debrid stand for the files that are selected, in their order.
def bestRealDebridLinkIndex (files : List RealDebridFile) : Int :=
  let best := ((files.filter fun f => f.selected = 1).zipIdx).foldl
    (fun p f => p.look toLower f.2 f.1.bytes f.1.path) Picked.init
  if 0 ≤ best.bestVideo then best.bestVideo else best.bestAny

def bestTorBoxFile (files : List TorBoxFile) : Int × Text :=
  let best := (files.filter fun f => 0 ≤ f.id).foldl (fun p f => p.look toLower f.id f.size f.name) Picked.init
  if 0 ≤ best.bestVideo then (best.bestVideo, best.bestVideoName) else (best.bestAny, best.bestAnyName)

end Pick

-- What the state of a transfer comes to: wait, with a line to show if there is one, have the files
-- selected, ask for the link, or give up.
inductive Verdict (Link : Type) where
  | again (status : Option (Text × Int))
  | select
  | link (link : Link)
  | fail (msg : Text)

def Verdict.isAgain {Link : Type} : Verdict Link → Bool
  | .again _ => true
  | .select => false
  | .link _ => false
  | .fail _ => false

-- What the clients differ in: their texts and how they read the answers. A transfer that was created has
-- an id. `judge` gives the name of the job too, and `unlock` has the name that the request was made with
-- and the one there is now.
structure Provider (Answer Link : Type) where
  noToken : Text
  inProgress : Text
  sending : Text
  preparing : Text
  selecting : Text
  tooLong : Text
  created : Answer → Except Text Text
  created_ne_nil : ∀ {answer id}, created answer = .ok id → id ≠ []
  judge : Bool → Text → Int → Answer → Text × Verdict Link
  unlock : Text → Text → Answer → Except Text (Text × Text)

inductive Call (Link : Type) where
  | add (magnet : Text)
  | info (id : Text)
  | select (id : Text)
  | link (id : Text) (link : Link) (name : Text)
deriving DecidableEq

-- The job that a request is made for stands beside it.
structure Request (Link : Type) where
  job : Nat
  call : Call Link
deriving DecidableEq

-- `jobs` counts the magnets that were accepted, `live` is the job that was neither cancelled nor has come
-- to its end, and `owner` the one that the transfer in `jobId` was made for.
structure State (Link : Type) where
  token : Text
  busy : Bool
  progress : Int
  status : Text
  jobId : Text
  jobName : Text
  filesSelected : Bool
  polling : Bool
  pollTries : Nat
  outstanding : List (Request Link)
  jobs : Nat
  live : Option Nat
  owner : Nat

inductive Out where
  | errorOccurred (msg : Text)
  | failed (job : Nat) (msg : Text)
  | streamReady (job : Nat) (url name : Text)
deriving DecidableEq

inductive Event (Answer : Type) where
  | setToken (token : Text)
  | streamMagnet (magnet : Text)
  | cancelStream
  | timeout
  | finished (i : Nat) (answer : Answer)

variable {Answer Link : Type}

namespace State

def setStatus (s : State Link) (status : Text) (progress : Int) : State Link :=
  { s with status := status, progress := progress }

def send (s : State Link) (job : Nat) (call : Call Link) : State Link :=
  { s with outstanding := s.outstanding ++ [⟨job, call⟩] }

def cancelStream (s : State Link) : State Link :=
  { s with polling := false, jobId := [], status := [], progress := 0, busy := false, live := none }

-- A job that ends is live no longer; another one that is live is not told.
def ended (s : State Link) (job : Nat) : State Link :=
  { s with live := if s.live = some job then none else s.live }

def failJob (s : State Link) (job : Nat) (msg : Text) : State Link × List Out :=
  (({ s with polling := false, jobId := [], status := [], progress := 0, busy := false }).ended job, [.failed job msg])

variable (P : Provider Answer Link)

def streamMagnet (s : State Link) (magnet : Text) : State Link × List Out :=
  if s.token = [] then (s, [.errorOccurred P.noToken])
  else if s.busy then (s, [.errorOccurred P.inProgress])
  else
    let job := s.jobs
    let s := { s with
      jobId := []
      jobName := []
      filesSelected := false
      pollTries := 0
      busy := true
      jobs := job + 1
      live := some job }
    ((s.setStatus P.sending 0).send job (.add magnet), [])

def onAddMagnet (s : State Link) (job : Nat) (answer : Answer) : State Link × List Out :=
  match P.created answer with
  | .error msg => s.failJob job msg
  | .ok id => ({ s with jobId := id, owner := job, polling := true }.setStatus P.preparing 0, [])

def pollJob (s : State Link) : State Link × List Out :=
  if s.jobId = [] then (s, [])
  else
    let s := { s with pollTries := s.pollTries + 1 }
    if kMaxPolls < s.pollTries then s.failJob s.owner P.tooLong
    else (s.send s.owner (.info s.jobId), [])

def onJobInfo (s : State Link) (job : Nat) (answer : Answer) : State Link × List Out :=
  if s.jobId = [] then (s, [])
  else
    let (name, verdict) := P.judge s.filesSelected s.jobName s.progress answer
    let s := { s with jobName := name }
    match verdict with
    | .again none => ({ s with polling := true }, [])
    | .again (some (status, progress)) => ({ s with polling := true }.setStatus status progress, [])
    | .select => (({ s with filesSelected := true }.setStatus P.selecting 0).send job (.select s.jobId), [])
    | .link link => ((s.setStatus "Unlocking stream…".toList 100).send job (.link s.jobId link name), [])
    | .fail msg => s.failJob job msg

def onSelected (s : State Link) : State Link × List Out :=
  if s.jobId = [] then (s, []) else ({ s with polling := true }, [])

def onUnrestrict (s : State Link) (job : Nat) (asked : Text) (answer : Answer) : State Link × List Out :=
  match P.unlock asked s.jobName answer with
  | .error msg => s.failJob job msg
  | .ok (url, name) =>
      ((({ s with jobId := [], busy := false }).setStatus [] 100).ended job, [.streamReady job url name])

def onReply (s : State Link) (r : Request Link) (answer : Answer) : State Link × List Out :=
  match r.call with
  | .add _ => s.onAddMagnet P r.job answer
  | .info _ => s.onJobInfo P r.job answer
  | .select _ => s.onSelected
  | .link _ _ name => s.onUnrestrict P r.job name answer

def next (s : State Link) : Event Answer → Option (State Link × List Out)
  | .setToken token => some ({ s with token := token }, [])
  | .streamMagnet magnet => some (s.streamMagnet P magnet)
  | .cancelStream => some (s.cancelStream, [])
  | .timeout => if s.polling then some ({ s with polling := false }.pollJob P) else none
  | .finished i answer =>
      (s.outstanding[i]?).map fun r => { s with outstanding := s.outstanding.eraseIdx i }.onReply P r answer

end State

def machine (P : Provider Answer Link) : Machine (State Link) (Event Answer) Out where
  init :=
    { token := []
      busy := false
      progress := 0
      status := []
      jobId := []
      jobName := []
      filesSelected := false
      polling := false
      pollTries := 0
      outstanding := []
      jobs := 0
      live := none
      owner := 0 }
  next := State.next P

section RealDebrid

structure RealDebridBody where
  id : Text
  status : Text
  filename : Option Text
  links : List Text
  files : List RealDebridFile
  progress : Int
  download : Text

-- None where the request failed or the answer is no object with something in it.
abbrev RealDebridAnswer := Option RealDebridBody

namespace RealDebridClient

variable (toLower : Text → Text)

def onAddMagnet (answer : RealDebridAnswer) : Except Text Text :=
  match answer with
  | none => .error "Real-Debrid couldn't accept this magnet.".toList
  | some o => if o.id = [] then .error "Real-Debrid couldn't accept this magnet.".toList else .ok o.id

theorem onAddMagnet_ne_nil {answer : RealDebridAnswer} {id : Text} (h : onAddMagnet answer = .ok id) : id ≠ [] := by
  cases answer with
  | none => cases h
  | some o =>
      unfold onAddMagnet at h
      dsimp only at h
      by_cases hid : o.id = []
      · rw [if_pos hid] at h
        cases h
      · rw [if_neg hid] at h
        obtain rfl := Except.ok.inj h
        exact hid

def noFile : Text := "No playable file in this Real-Debrid transfer.".toList

def onDownloaded (o : RealDebridBody) : Verdict Text :=
  let idx := bestRealDebridLinkIndex toLower o.files
  if idx < 0 then .fail noFile
  else
    match o.links[idx.toNat]? with
    | none => .fail noFile
    | some link => if link = [] then .fail noFile else .link link

def onJobInfo (filesSelected : Bool) (jobName : Text) (progress : Int) (answer : RealDebridAnswer) :
    Text × Verdict Text :=
  match answer with
  | none => (jobName, .again none)
  | some o =>
      (o.filename.getD [],
        if o.status = "waiting_files_selection".toList then if filesSelected then .again none else .select
        else if o.status = "downloaded".toList then onDownloaded toLower o
        else if o.status = "downloading".toList then
          .again (some ("Real-Debrid is caching…".toList, max 0 (min o.progress 100)))
        else if o.status ∈ ["magnet_conversion".toList, "queued".toList, "compressing".toList, "uploading".toList] then
          .again (some ("Preparing on Real-Debrid…".toList, progress))
        else .fail ("Real-Debrid failed on this torrent (".toList ++ o.status ++ ").".toList))

def onUnrestrict (jobName : Text) (answer : RealDebridAnswer) : Except Text (Text × Text) :=
  match answer with
  | none => .error "Real-Debrid couldn't unlock the stream link.".toList
  | some o =>
      if o.download = [] then .error "Real-Debrid couldn't unlock the stream link.".toList
      else .ok (o.download, o.filename.getD jobName)

-- The name is the one there is when the link comes.
def provider : Provider RealDebridAnswer Text where
  noToken := "Add your Real-Debrid token in Settings first.".toList
  inProgress := "A Real-Debrid transfer is already in progress.".toList
  sending := "Sending to Real-Debrid…".toList
  preparing := "Preparing on Real-Debrid…".toList
  selecting := "Selecting files…".toList
  tooLong := "Real-Debrid is taking too long — try again later.".toList
  created := onAddMagnet
  created_ne_nil := onAddMagnet_ne_nil
  judge := onJobInfo toLower
  unlock _ jobName answer := onUnrestrict jobName answer

end RealDebridClient

end RealDebrid

section TorBox

structure TorBoxTorrent where
  torrentId : Text ⊕ Int
  name : Text
  finished : Bool
  present : Bool
  files : List TorBoxFile
  state : Text
  progress : Int

-- `data` is none where it is no object with something in it, and `url` what it is as a string. The
-- progress is in percent.
structure TorBoxAnswer where
  error : Bool
  success : Bool
  detail : Text
  data : Option TorBoxTorrent
  url : Text

def TorBoxAnswer.failed (answer : TorBoxAnswer) : Bool := answer.error || !answer.success

namespace TorBoxClient

variable (toLower : Text → Text)

def idOf : Option TorBoxTorrent → Text
  | none => "0".toList
  | some d =>
      match d.torrentId with
      | .inl id => id
      | .inr n => (toString n).toList

def onCreate (answer : TorBoxAnswer) : Except Text Text :=
  if answer.failed then
    .error (if answer.detail = [] then "TorBox couldn't accept this magnet.".toList else answer.detail)
  else if idOf answer.data = [] ∨ idOf answer.data = "0".toList then
    .error "TorBox couldn't accept this magnet.".toList
  else .ok (idOf answer.data)

theorem onCreate_ne_nil {answer : TorBoxAnswer} {id : Text} (h : onCreate answer = .ok id) : id ≠ [] := by
  unfold onCreate at h
  by_cases hfailed : answer.failed = true
  · rw [if_pos hfailed] at h
    cases h
  · rw [if_neg hfailed] at h
    by_cases hid : idOf answer.data = [] ∨ idOf answer.data = "0".toList
    · rw [if_pos hid] at h
      cases h
    · rw [if_neg hid] at h
      obtain rfl := Except.ok.inj h
      exact fun hnil => hid (.inl hnil)

def onJobInfo (jobName : Text) (answer : TorBoxAnswer) : Text × Verdict Int :=
  if answer.failed then (jobName, .again none)
  else
    match answer.data with
    | none => (jobName, .again none)
    | some o =>
        if o.finished && o.present then
          let best := bestTorBoxFile toLower o.files
          if best.1 < 0 then (o.name, .fail "No playable file in this TorBox transfer.".toList)
          else (if best.2 = [] then o.name else best.2, .link best.1)
        else if "stalled".toList.isPrefixOf o.state ∨ o.state = "error".toList ∨ o.state = "missingFiles".toList then
          (o.name, .fail ("TorBox failed on this torrent (".toList ++ o.state ++ ").".toList))
        else (o.name, .again (some ("TorBox is caching…".toList, max 0 (min o.progress 100))))

def onRequestLink (name : Text) (answer : TorBoxAnswer) : Except Text (Text × Text) :=
  if answer.failed ∨ answer.url = [] then .error "TorBox couldn't unlock the stream link.".toList
  else .ok (answer.url, name)

-- The name is the one that the link was asked for with, and no files have to be selected.
def provider : Provider TorBoxAnswer Int where
  noToken := "Add your TorBox API key in Settings first.".toList
  inProgress := "A TorBox transfer is already in progress.".toList
  sending := "Sending to TorBox…".toList
  preparing := "Preparing on TorBox…".toList
  selecting := []
  tooLong := "TorBox is taking too long — try again later.".toList
  created := onCreate
  created_ne_nil := onCreate_ne_nil
  judge _ jobName _ answer := onJobInfo toLower jobName answer
  unlock name _ answer := onRequestLink name answer

end TorBoxClient

end TorBox

end BATorrent.Debrid
