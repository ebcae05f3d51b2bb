import BATorrent.Lib.Text
import BATorrent.Lib.Utf8
import BATorrent.Webui.WebServer

namespace BATorrent.WebServer

open Lib.ByteText Lib.Utf8
open Lib.DataStream (Bytes)

def boundaryOf (ct : Bytes) : Bytes :=
  match indexOf (ascii "boundary=") ct with
  | none => []
  | some boundaryIdx =>
      let b := trimmed (ct.drop (boundaryIdx + 9))
      let b := if 2 ≤ b.length ∧ b.head? = some 34 ∧ b.getLast? = some 34 then (b.drop 1).take (b.length - 2) else b
      ascii "--" ++ b

-- A negative length takes all there is.
def mid (bs : Bytes) (pos : Nat) (len : Int) : Bytes := if len < 0 then bs.drop pos else (bs.drop pos).take len.toNat

-- What is in the first part that has the mark in it, as far as the CRLF before the boundary.
def partData (mark body boundary : Bytes) : Option Bytes :=
  (indexOf mark body).bind fun partIdx =>
    (indexFrom (crlf ++ crlf) body partIdx).bind fun headEnd =>
      let dataStart := headEnd + 4
      (indexFrom boundary body dataStart).map fun dataEnd : Nat => mid body dataStart ((dataEnd : Int) - 2 - dataStart)

-- What the server runs in: the save paths of the torrents it has, and whether a temporary file can be made.
structure Host where
  savePaths : List Text
  homePath : Text
  tempOpens : Bool

def Host.defaultPath (host : Host) : Text :=
  match host.savePaths with
  | path :: _ => path
  | [] => host.homePath ++ "/Downloads".toList

-- The torrent as added: what is in the temporary file, and the path.
structure Upload where
  fileData : Bytes
  savePath : Text
deriving DecidableEq

def handleUploadTorrent (host : Host) (repaired : Bytes → Text) (body boundary : Bytes) : Option Upload :=
  (partData (ascii "filename=\"") body boundary).bind fun fileData =>
    let savePath :=
      match partData (ascii "name=\"savePath\"") body boundary with
      | some bytes => Lib.Text.trimmed (decode repaired bytes)
      | none => []
    let savePath := if savePath = [] then host.defaultPath else savePath
    if host.tempOpens then some ⟨fileData, savePath⟩ else none

inductive Uploaded where
  | notMultipart
  | missingBoundary
  | failed
  | ok (u : Upload)
deriving DecidableEq

def postTorrents (host : Host) (repaired : Bytes → Text) (ct body : Bytes) : Uploaded :=
  if (indexOf (ascii "multipart/form-data") ct).isSome then
    let boundary := boundaryOf ct
    if boundary = [] then .missingBoundary
    else
      match handleUploadTorrent host repaired body boundary with
      | some u => .ok u
      | none => .failed
  else .notMultipart

section FormData

structure FormField where
  name : Bytes
  filename : Option Bytes
  headers : List Bytes
  value : Bytes

namespace FormField

def head (f : FormField) : Bytes :=
  ascii "Content-Disposition: form-data; name=\"" ++ f.name ++ ascii "\"" ++
    (match f.filename with
      | none => []
      | some filename => ascii "; filename=\"" ++ filename ++ ascii "\"") ++
    f.headers.flatMap (crlf ++ ·)

def opening (b : Bytes) (f : FormField) : Bytes := ascii "--" ++ b ++ crlf ++ f.head ++ (crlf ++ crlf)

def bytes (b : Bytes) (f : FormField) : Bytes := f.opening b ++ f.value ++ crlf

end FormField

-- The file and the save path stand in either order, with what other fields there are before, between and after.
structure Form where
  preamble : Option Bytes
  before : List FormField
  between : List FormField
  after : List FormField
  epilogue : Bytes
  fileFirst : Bool
  fileName : Bytes
  fileField : Bytes
  fileHeaders : List Bytes
  content : Bytes
  pathHeaders : List Bytes
  savePath : Text

namespace Form

def file (f : Form) : FormField := ⟨f.fileField, some f.fileName, f.fileHeaders, f.content⟩

def path (f : Form) : FormField := ⟨ascii "savePath", none, f.pathHeaders, encode f.savePath⟩

def aheadOfFile (f : Form) : List FormField := if f.fileFirst then f.before else f.before ++ f.path :: f.between

def aheadOfPath (f : Form) : List FormField := if f.fileFirst then f.before ++ f.file :: f.between else f.before

def fields (f : Form) : List FormField :=
  if f.fileFirst then f.before ++ f.file :: (f.between ++ f.path :: f.after)
  else f.before ++ f.path :: (f.between ++ f.file :: f.after)

def lead (f : Form) : Bytes := f.preamble.elim [] (· ++ crlf)

-- As RFC 2046 has it.
def body (f : Form) (b : Bytes) : Bytes :=
  f.lead ++ f.fields.flatMap (FormField.bytes b) ++ (ascii "--" ++ b ++ ascii "--" ++ f.epilogue)

-- The request as far as a field's own data.
def upTo (f : Form) (b : Bytes) (ahead : List FormField) (field : FormField) : Bytes :=
  f.lead ++ ahead.flatMap (FormField.bytes b) ++ field.opening b

end Form

-- The characters of a boundary, and those it may have without quotes.
def isBchar (c : UInt8) : Bool :=
  (48 ≤ c && c ≤ 57) || (65 ≤ c && c ≤ 90) || (97 ≤ c && c ≤ 122) || c ∈ ascii "'()+_,-./:=? "

def isTokenChar (c : UInt8) : Bool := isBchar c && !(c ∈ ascii "(),/:=? ")

def IsBoundary (b : Bytes) : Prop :=
  b ≠ [] ∧ b.length ≤ 70 ∧ (∀ c ∈ b, isBchar c = true) ∧ b.getLast? ≠ some 32

def contentType (quoted : Bool) (b : Bytes) : Bytes :=
  ascii "multipart/form-data; boundary=" ++ if quoted then ascii "\"" ++ b ++ ascii "\"" else b

end FormData

-- The first mark is in what opens the part, with no blank line between it and the data.
def Opens (mark opening : Bytes) : Prop :=
  ∃ i, indexOf mark opening = some i ∧ indexFrom (crlf ++ crlf) opening i = some (opening.length - 4)

section Parts

variable {mark opening content boundary b : Bytes} {ahead behind : List FormField} {field : FormField}

theorem partData_of_opens (hopens : Opens mark opening) (hcontent : ¬ boundary <:+: content)
    (hcr : 13 ∉ boundary) (hlf : 10 ∉ boundary) (hdash : boundary.head? = some 45) (more : Bytes) :
    partData mark (opening ++ (content ++ (crlf ++ (boundary ++ more)))) boundary = some content := by
  obtain ⟨i, hmark, hblank⟩ := hopens
  have hi := le_of_indexOf hmark
  have hfour : opening.length - 4 + 4 = opening.length := by
    obtain ⟨hle, hfits, -⟩ := eq_of_indexFrom hblank
    have hlen : (crlf ++ crlf).length = 4 := by decide +kernel
    rw [hlen, Nat.max_eq_right hi] at hfits
    exact Nat.le_antisymm hfits (by omega)
  have hcrlf : crlf = [13, 10] := by decide +kernel
  have hgap : ∀ c ∈ [13, 10], c ∉ boundary := by
    rw [List.forall_mem_cons, List.forall_mem_singleton]
    exact ⟨hcr, hlf⟩
  have hstop := indexOf_past hcontent hgap hdash more
  unfold partData
  rw [indexOf_append hmark, Option.bind_some, indexFrom_append hi hblank, Option.bind_some]
  dsimp only
  rw [hfour, indexFrom, List.drop_left, show crlf = 13 :: [10] from hcrlf, hstop, Option.map_some, Option.map_some]
  have hlen : ((content.length + (([10] : Bytes).length + 1) + opening.length : Nat) : Int) - 2 - opening.length =
      content.length := by
    rw [List.length_singleton]
    omega
  rw [hlen, mid, if_neg (by omega), List.drop_left, Int.toNat_natCast, List.take_left]

theorem upTo_append (f : Form) (hfields : f.fields = ahead ++ field :: behind) :
    ∃ more, f.body b = f.upTo b ahead field ++ (field.value ++ (crlf ++ (ascii "--" ++ b ++ more))) := by
  have hnext : ∃ more, behind.flatMap (FormField.bytes b) ++ (ascii "--" ++ b ++ ascii "--" ++ f.epilogue) =
      ascii "--" ++ b ++ more := by
    cases behind with
    | nil => exact ⟨ascii "--" ++ f.epilogue, List.append_assoc _ _ _⟩
    | cons g gs =>
        refine ⟨crlf ++ g.head ++ (crlf ++ crlf) ++ g.value ++ crlf ++
          (gs.flatMap (FormField.bytes b) ++ (ascii "--" ++ b ++ ascii "--" ++ f.epilogue)), ?_⟩
        rw [List.flatMap_cons, FormField.bytes, FormField.opening]
        simp only [List.append_assoc]
  obtain ⟨more, hmore⟩ := hnext
  refine ⟨more, ?_⟩
  rw [Form.body, Form.upTo, hfields, List.flatMap_append, List.flatMap_cons, ← hmore, FormField.bytes]
  simp only [List.append_assoc]

theorem fields_file (f : Form) : ∃ behind, f.fields = f.aheadOfFile ++ f.file :: behind := by
  unfold Form.fields Form.aheadOfFile
  split_ifs
  · exact ⟨_, rfl⟩
  · refine ⟨f.after, ?_⟩
    rw [List.append_assoc, List.cons_append]

theorem fields_path (f : Form) : ∃ behind, f.fields = f.aheadOfPath ++ f.path :: behind := by
  unfold Form.fields Form.aheadOfPath
  split_ifs
  · refine ⟨f.after, ?_⟩
    rw [List.append_assoc, List.cons_append]
  · exact ⟨_, rfl⟩

end Parts

section Boundary

variable {b : Bytes}

theorem not_bchar_13 : isBchar 13 = false := by decide +kernel

theorem not_bchar_10 : isBchar 10 = false := by decide +kernel

theorem isSpace_of_token {c : UInt8} (h : isTokenChar c = true) : isSpace c = false ∧ c ≠ 34 := by
  have hothers : ∀ c ∈ [9, 10, 11, 12, 13, 32, 34], isTokenChar c = false := by decide +kernel
  have hnot : c ∉ [9, 10, 11, 12, 13, 32, 34] := fun hmem => by
    rw [hothers c hmem] at h
    exact Bool.false_ne_true h
  simp only [List.mem_cons, List.not_mem_nil, or_false, not_or, ← UInt8.toNat_inj] at hnot
  refine ⟨?_, fun heq => hnot.2.2.2.2.2.2 (congrArg UInt8.toNat heq)⟩
  unfold isSpace
  simp only [Bool.or_eq_false_iff, decide_eq_false_iff_not, Bool.and_eq_false_iff, UInt8.le_iff_toNat_le,
    ← UInt8.toNat_inj]
  simp only [UInt8.reduceToNat] at hnot ⊢
  omega

theorem trimmed_ends {x : Bytes} {c d : UInt8} (hhead : x.head? = some c) (hlast : x.getLast? = some d)
    (hc : isSpace c = false) (hd : isSpace d = false) : trimmed x = x := by
  have hne : x ≠ [] := by
    rintro rfl
    cases hhead
  have htrim : trimmed (x ++ []) = x := by
    refine trimmed_append (fun b hb => ?_) (fun b hb => ?_) hne (by simp)
    · rw [hhead] at hb
      exact Option.mem_some_iff.mp hb ▸ hc
    · rw [hlast] at hb
      exact Option.mem_some_iff.mp hb ▸ hd
  rwa [List.append_nil] at htrim

theorem contentType_eq (quoted : Bool) (b : Bytes) : contentType quoted b =
    ascii "multipart/form-data; " ++ (ascii "boundary=" ++ if quoted then 34 :: (b ++ [34]) else b) := by
  have hsplit : ascii "multipart/form-data; boundary=" = ascii "multipart/form-data; " ++ ascii "boundary=" := by
    decide +kernel
  have hquote : ascii "\"" = [34] := by decide +kernel
  rw [contentType, hsplit, hquote, List.append_assoc]
  rfl

theorem boundaryOf_contentType (quoted : Bool) (hb : b ≠ []) (htoken : quoted = false → ∀ c ∈ b, isTokenChar c = true) :
    boundaryOf (contentType quoted b) = ascii "--" ++ b := by
  have hskip : ∀ c ∈ ascii "multipart/form-data; ", c ≠ 98 := by decide +kernel
  have hhead : (ascii "boundary=").head? = some 98 := by decide +kernel
  have hfound := indexOf_skip hskip hhead (if quoted then 34 :: (b ++ [34]) else b)
  have hlen : (ascii "multipart/form-data; ").length + 9 = (ascii "multipart/form-data; " ++ ascii "boundary=").length := by
    decide +kernel
  unfold boundaryOf
  rw [contentType_eq, hfound]
  dsimp only
  rw [hlen, ← List.append_assoc, List.drop_left]
  cases quoted with
  | true =>
      have htrim : trimmed (34 :: (b ++ [34])) = 34 :: (b ++ [34]) := trimmed_ends (c := 34) rfl
        (List.getLast?_concat (l := 34 :: b)) (by decide) (by decide)
      rw [if_pos rfl, htrim, if_pos ⟨by simp, rfl, List.getLast?_concat (l := 34 :: b)⟩]
      simp
  | false =>
      have hfirst := isSpace_of_token (htoken rfl (b.head hb) (List.head_mem hb))
      have hlast := isSpace_of_token (htoken rfl (b.getLast hb) (List.getLast_mem hb))
      have htrim : trimmed b = b :=
        trimmed_ends (List.head?_eq_some_head hb) (List.getLast?_eq_some_getLast hb) hfirst.1 hlast.1
      rw [if_neg Bool.false_ne_true, htrim, if_neg]
      rintro ⟨-, hquote, -⟩
      rw [List.head?_eq_some_head hb] at hquote
      exact hfirst.2 (Option.some_inj.mp hquote)

end Boundary

section Sent

-- The path as it is used: without white space around it and a mark before it, and another where nothing is left.
def Form.usedPath (f : Form) (host : Host) : Text :=
  let savePath := Lib.Text.trimmed (withoutMark f.savePath)
  if savePath = [] then host.defaultPath else savePath

structure Form.Clear (f : Form) (b : Bytes) : Prop where
  file : Opens (ascii "filename=\"") (f.upTo b f.aheadOfFile f.file)
  path : Opens (ascii "name=\"savePath\"") (f.upTo b f.aheadOfPath f.path)
  content : ¬ ascii "--" ++ b <:+: f.content
  savePath : ¬ ascii "--" ++ b <:+: encode f.savePath

variable (host : Host) (repaired : Bytes → Text) {f : Form} {b : Bytes}

theorem handleUploadTorrent_clear (hb : IsBoundary b) (h : f.Clear b) :
    handleUploadTorrent host repaired (f.body b) (ascii "--" ++ b) =
      if host.tempOpens then some ⟨f.content, f.usedPath host⟩ else none := by
  have hdashes : ascii "--" = [45, 45] := by decide +kernel
  have hnot : ∀ c, isBchar c = false → c ≠ 45 → c ∉ ascii "--" ++ b := by
    intro c hc hdash hmem
    rw [hdashes] at hmem
    rcases List.mem_append.mp hmem with hmem | hmem
    · simp [hdash] at hmem
    · rw [hb.2.2.1 c hmem] at hc
      contradiction
  have hcr := hnot 13 not_bchar_13 (by decide)
  have hlf := hnot 10 not_bchar_10 (by decide)
  have hhead : (ascii "--" ++ b).head? = some 45 := by
    rw [hdashes]
    rfl
  have hfile : partData (ascii "filename=\"") (f.body b) (ascii "--" ++ b) = some f.content := by
    obtain ⟨behind, hfields⟩ := fields_file f
    obtain ⟨more, hbody⟩ := upTo_append (b := b) f hfields
    rw [hbody]
    exact partData_of_opens h.file h.content hcr hlf hhead more
  have hpath : partData (ascii "name=\"savePath\"") (f.body b) (ascii "--" ++ b) = some (encode f.savePath) := by
    obtain ⟨behind, hfields⟩ := fields_path f
    obtain ⟨more, hbody⟩ := upTo_append (b := b) f hfields
    rw [hbody]
    exact partData_of_opens h.path h.savePath hcr hlf hhead more
  rw [handleUploadTorrent, hfile, hpath, Option.bind_some]
  simp only [decode_encode]
  rfl

theorem postTorrents_clear (hb : IsBoundary b) (quoted : Bool)
    (htoken : quoted = false → ∀ c ∈ b, isTokenChar c = true) (h : f.Clear b) :
    postTorrents host repaired (contentType quoted b) (f.body b) =
      if host.tempOpens then .ok ⟨f.content, f.usedPath host⟩ else .failed := by
  have hmultipart : (indexOf (ascii "multipart/form-data") (contentType quoted b)).isSome = true := by
    have hstart : indexOf (ascii "multipart/form-data") (ascii "multipart/form-data; boundary=") = some 0 := by
      decide +kernel
    rw [contentType, indexOf_append hstart]
    rfl
  have hne : ascii "--" ++ b ≠ [] := List.append_ne_nil_of_right_ne_nil _ hb.1
  rw [postTorrents, if_pos hmultipart, boundaryOf_contentType quoted hb.1 htoken]
  dsimp only
  rw [if_neg hne, handleUploadTorrent_clear host repaired hb h]
  split_ifs <;> rfl

-- Where the boundary is nowhere in the file or the path and each is found where its part is, the file is taken as it
-- is and the path without the white space around it.
theorem upload_kept (hb : IsBoundary b) (quoted : Bool) (htoken : quoted = false → ∀ c ∈ b, isTokenChar c = true)
    (h : f.Clear b) :
    postTorrents host repaired (contentType quoted b) (f.body b) =
      if host.tempOpens then .ok ⟨f.content, f.usedPath host⟩ else .failed :=
  postTorrents_clear host repaired hb quoted htoken h

section Sample

def sampleHost : Host := ⟨[], "/home/me".toList, true⟩

-- The path is first and has a blank after it, and dashes and ends of lines are in the file.
def sampleForm : Form where
  preamble := none
  before := [⟨ascii "category", none, [], ascii "films"⟩]
  between := []
  after := []
  epilogue := crlf
  fileFirst := false
  fileName := ascii "a.torrent"
  fileField := ascii "file"
  fileHeaders := [ascii "Content-Type: application/x-bittorrent"]
  content := ascii "d4:info\r\n\r\n--e"
  pathHeaders := []
  savePath := "/films ".toList

def sampleBoundary : Bytes := ascii "----B7"

theorem isBoundary_sample : IsBoundary sampleBoundary := by
  unfold IsBoundary
  decide +kernel

theorem token_sample : ∀ c ∈ sampleBoundary, isTokenChar c = true := by decide +kernel

theorem clear_sample : sampleForm.Clear sampleBoundary where
  file := ⟨193, by decide +kernel, by decide +kernel⟩
  path := ⟨110, by decide +kernel, by decide +kernel⟩
  content := by decide +kernel
  savePath := by decide +kernel

theorem upload_kept_sample :
    postTorrents sampleHost (fun _ => []) (contentType false sampleBoundary) (sampleForm.body sampleBoundary) =
      .ok ⟨sampleForm.content, sampleForm.usedPath sampleHost⟩ :=
  upload_kept sampleHost (fun _ => []) isBoundary_sample false (fun _ => token_sample) clear_sample

-- No line of the file starts with the boundary, and still the path is another.
theorem not_that_path :
    (¬ ascii "--" ++ sampleBoundary <+: sampleForm.content) ∧
      (¬ crlf ++ (ascii "--" ++ sampleBoundary) <:+: sampleForm.content) ∧
      postTorrents sampleHost (fun _ => []) (contentType false sampleBoundary) (sampleForm.body sampleBoundary) ≠
        .ok ⟨sampleForm.content, sampleForm.savePath⟩ := by
  refine ⟨by decide +kernel, by decide +kernel, fun h => ?_⟩
  have hkept := postTorrents_clear sampleHost (fun _ => []) isBoundary_sample false (fun _ => token_sample) clear_sample
  have hpath := congrArg Upload.savePath (Uploaded.ok.inj (hkept.symm.trans h))
  exact absurd hpath (by decide +kernel)

end Sample

end Sent

end BATorrent.WebServer
