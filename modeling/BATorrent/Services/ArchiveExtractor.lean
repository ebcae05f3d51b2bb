import BATorrent.Lib.Run
import BATorrent.Services.ArchiveScan

namespace BATorrent.ArchiveExtractor

open Lib ArchiveScan

-- What the system and the settings bring to an extraction.
structure Config where
  toLower : Text → Text
  detect : Text → Text
  hidden : Text → Bool
  deleteAfter : Bool
  passwords : List Text

-- What a torrent left in its save path: a folder with its files, or one file beside those of others.
inductive Content where
  | folder (names : List Text)
  | file (name : Text) (siblings : List Text)
  | absent

-- The files are those in the folder of the archives. Both lists have the current one first.
structure State where
  files : List Text
  archives : List Text
  attempts : List Text
  allOk : Bool
  extracted : List Text

inductive Event where
  | finished (exitCode : Int) (appeared : List Text)
  | failedToStart (appeared : List Text)

inductive Out where
  | removed (name : Text)
  | extracted (archive : Text)
  | extractError (archive : Text)
  | extractionCompleted (allOk : Bool)
deriving DecidableEq

-- The part of a name before its last dot.
def completeBaseName (name : Text) : Text :=
  match name.reverse.idxOf? '.' with
  | some i => name.take (name.length - (i + 1))
  | none => name

-- Ends in .r and digits, or in .part, digits and .rar.
def rarTail (name : Text) : Bool :=
  let s := chomp name
  let digits := digitsAtEnd s
  (digits ≠ [] && ['.', 'r'].isSuffixOf (s.take (s.length - digits.length))) || (partDigits name).isSome

def related (archive name : Text) : Bool :=
  (completeBaseName archive).isPrefixOf name && (['.', 'r', 'a', 'r'].isSuffixOf name || rarTail name)

section Extract

variable (c : Config)

def archivesOf : Content → List Text
  | .folder names => archivesToExtract c.toLower (names.filter fun n => !c.hidden n)
  | .file name _ => if archivesToExtract c.toLower [name] = [] then [] else [name]
  | .absent => []

def filesOf : Content → List Text
  | .folder names => names
  | .file name siblings => name :: siblings
  | .absent => []

def addPassword (attempts : List Text) (p : Text) : List Text :=
  if p ∈ attempts then attempts else attempts ++ [p]

def attemptsFor (priorityPassword archive : Text) : List Text :=
  let tried := if priorityPassword = [] then [] else [priorityPassword]
  (taggedPasswords c.detect archive ++ [[]] ++ c.passwords ++ knownPasswords c.detect archive).foldl
    addPassword tried

def processArchive (priorityPassword : Text) (archives : List Text) : List Text :=
  (archives.head?.map (attemptsFor c priorityPassword)).getD []

def start (priorityPassword : Text) (content : Content) : State where
  files := filesOf content
  archives := archivesOf c content
  attempts := processArchive c priorityPassword (archivesOf c content)
  allOk := true
  extracted := []

namespace State

-- What is left of the files once the archive is deleted with all that is taken for its volumes.
def deleteAfter (s : State) (archive : Text) : State × List Out :=
  let others := s.files.filter fun n => n ≠ archive
  let removed := others.filter fun n => !c.hidden n && related archive n
  ({ s with files := others.filter fun n => n ∉ removed }, (archive :: removed).map .removed)

def advance (s : State) (priorityPassword : Text) (rest : List Text) : State × List Out :=
  ({ s with archives := rest, attempts := processArchive c priorityPassword rest },
    if rest = [] then [.extractionCompleted s.allOk] else [])

def attemptFailed (s : State) (priorityPassword archive : Text) (rest : List Text) : State × List Out :=
  match s.attempts.tail with
  | [] =>
      let advanced := { s with allOk := false }.advance c priorityPassword rest
      (advanced.1, .extractError archive :: advanced.2)
  | attempts => ({ s with attempts := attempts }, [])

def succeeded (s : State) (priorityPassword archive : Text) (rest : List Text) : State × List Out :=
  let s := { s with extracted := archive :: s.extracted }
  let deleted := if c.deleteAfter then s.deleteAfter c archive else (s, [])
  let advanced := deleted.1.advance c priorityPassword rest
  (advanced.1, .extracted archive :: deleted.2 ++ advanced.2)

def next (priorityPassword : Text) (s : State) (a : Event) : Option (State × List Out) :=
  match s.archives, a with
  | [], _ => none
  | archive :: rest, .finished exitCode appeared =>
      let s := { s with files := s.files ++ appeared }
      if exitCode = 0 then some (s.succeeded c priorityPassword archive rest)
      else some (s.attemptFailed c priorityPassword archive rest)
  | archive :: rest, .failedToStart appeared =>
      some ({ s with files := s.files ++ appeared }.attemptFailed c priorityPassword archive rest)

end State

end Extract

def machine (c : Config) (priorityPassword : Text) (content : Content) : Machine State Event Out where
  init := start c priorityPassword content
  next := State.next c priorityPassword

end BATorrent.ArchiveExtractor
