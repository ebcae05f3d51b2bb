import BATorrent.Lib.SortedMap
import BATorrent.Lib.Text
import Mathlib.Data.List.DropRight
import Mathlib.Data.List.Lex
import Mathlib.Data.List.Sort

namespace BATorrent.FileGroups

open Lib

abbrev Text := List Char

structure File where
  index : Int
  path : Text
  size : Int

structure Chip where
  label : Text
  lang : Text
  files : List Int
  size : Int
  inBase : Bool

structure Group where
  kind : Text
  label : Text
  season : Int
  files : List Int
  size : Int
  chips : List Chip

structure Lang where
  code : Text
  label : Text

-- What is read of a parsed name.
structure ParsedName where
  season : Int
  episode : Int

-- What is left to others: the cases of letters, and what a name says of season and episode.
structure Names where
  toLower : Text → Text
  toUpper : Text → Text
  parse : Text → ParsedName

section Strings

def baseName (path : Text) : Text := path.rtakeWhile fun c => c ≠ '/' && c ≠ '\\'

def contains (t part : Text) : Bool := decide (part <:+: t)

def startsWith (t part : Text) : Bool := part.isPrefixOf t

def endsWith (t part : Text) : Bool := part.isSuffixOf t

def left (t : Text) (n : Nat) : Text := t.take n

def pad2 (n : Int) : Text :=
  let t := Text.number n
  List.replicate (2 - t.length) '0' ++ t

variable (names : Names)

def lowerExt (name : Text) : Text :=
  if '.' ∈ name then names.toLower (name.rtakeWhile (· ≠ '.')) else []

def isVideo (ext : Text) : Bool :=
  ["mkv", "mp4", "avi", "mov", "wmv", "m4v", "ts", "m2ts", "webm"].any (String.toList · == ext)

def isInstaller (lowerName : Text) : Bool :=
  lowerName == "setup.exe".toList || startsWith lowerName "setup-".toList ||
    lowerName == "isdone.dll".toList || lowerName == "unarc.dll".toList ||
    (endsWith lowerName ".dll".toList && (Text.utf16 lowerName).length < 16)

def extraLabel (token : Text) : Text :=
  let t := names.toLower token
  if contains t "soundtrack".toList || contains t "ost".toList then "Soundtrack".toList
  else if contains t "artbook".toList || contains t "art".toList then "Artbook".toList
  else if contains t "video".toList || contains t "movie".toList then "Videos".toList
  else if contains t "bonus".toList then "Bonus".toList
  else
    let s := token.map fun c => if c = '_' ∨ c = '-' then ' ' else c
    names.toUpper (s.take 1) ++ s.drop 1

def table : List (List String × String × String) :=
  [(["english", "eng", "en"], "en", "English"),
    (["brazilian", "portuguese_br", "portuguese-br", "ptbr", "pt-br", "pt_br", "brazil", "portugues_br"],
      "pt-BR", "Português (BR)"),
    (["portuguese", "portugues", "por", "pt", "pt-pt"], "pt-PT", "Português (PT)"),
    (["spanish_latam", "latam", "spanish-latam", "es-419", "latino", "spanish_la", "mexican"],
      "es-419", "Español (LA)"),
    (["spanish", "spa", "es", "castellano", "es-es"], "es-ES", "Español (ES)"),
    (["french", "fre", "fra", "fr"], "fr", "Français"),
    (["german", "ger", "deu", "de"], "de", "Deutsch"),
    (["italian", "ita", "it"], "it", "Italiano"),
    (["russian", "rus", "ru"], "ru", "Русский"),
    (["polish", "pol", "pl"], "pl", "Polski"),
    (["japanese", "jpn", "ja", "jp"], "ja", "日本語"),
    (["chinese", "chinese_simplified", "schinese", "chs", "zh", "zh-cn"], "zh", "中文"),
    (["tchinese", "chinese_traditional", "cht", "zh-tw"], "zh-TW", "中文 (繁體)"),
    (["korean", "kor", "ko"], "ko", "한국어"),
    (["turkish", "tur", "tr"], "tr", "Türkçe"),
    (["ukrainian", "ukr", "uk"], "uk", "Українська"),
    (["czech", "cze", "cs"], "cs", "Čeština"),
    (["hungarian", "hun", "hu"], "hu", "Magyar"),
    (["dutch", "dut", "nl"], "nl", "Nederlands"),
    (["arabic", "ara", "ar"], "ar", "العربية"),
    (["thai", "tha", "th"], "th", "ไทย")]

-- What is no language has no code and no label.
def languageFromToken (token : Text) : Lang :=
  let t := names.toLower (Text.trimmed token)
  match table.find? fun row => row.1.any (String.toList · == t) with
  | some row => ⟨row.2.1.toList, row.2.2.toList⟩
  | none => ⟨[], []⟩

end Strings

section Patterns

-- What follows the prefix, in letters of any case.
def afterPrefix (start name : Text) : Option Text :=
  if (name.take start.length).map Text.foldCase = start then some (name.drop start.length) else none

-- The end of a name may have a line break after it.
def binTail (t : Text) : Bool :=
  let t := t.map Text.foldCase
  t == ".bin".toList || t == ".bin\n".toList

def numberedTail (t : Text) : Bool :=
  binTail t ||
    match t with
    | '-' :: rest => rest.takeWhile Char.isDigit ≠ [] && binTail (rest.dropWhile Char.isDigit)
    | _ => false

-- The shortest run of such characters that one of these tails follows.
def captured (allowed : Char → Bool) (t : Text) : Option Text :=
  (List.range t.length).findSome? fun k =>
    if (t.take (k + 1)).all allowed && numberedTail (t.drop (k + 1)) then some (t.take (k + 1)) else none

def wordChar (c : Char) : Bool := (Text.foldCase c).isLower || c = '_' || c = '-'

def selective (name : Text) : Option Text := (afterPrefix "fg-selective-".toList name).bind (captured wordChar)

def optional (name : Text) : Option Text :=
  (afterPrefix "fg-optional-".toList name).bind (captured fun c => wordChar c || c.isDigit)

end Patterns

section Passes

def newGroup (kind label : String) : Group := ⟨kind.toList, label.toList, -1, [], 0, []⟩

def add (g : Group) (f : File) : Group := { g with files := g.files ++ [f.index], size := g.size + f.size }

def chipFor (f : File) (label lang : Text) : Chip := ⟨label, lang, [f.index], f.size, false⟩

abbrev ChipMap := List (List Nat × Chip)

-- The chip under a key, with its label set if it has none, takes the file.
def addTo (chips : ChipMap) (key label lang : Text) (f : File) : ChipMap :=
  SortedMap.alter (Text.utf16 key) (fun had =>
    let c := had.getD ⟨[], [], [], 0, false⟩
    let c := if c.label = [] then { c with label := label, lang := lang } else c
    { c with files := c.files ++ [f.index], size := c.size + f.size }) chips

structure Repack where
  game : Group
  langs : Group
  extras : Group
  setup : Group
  langChips : ChipMap
  extraChips : ChipMap

def Repack.empty : Repack :=
  ⟨newGroup "game" "grp_game", newGroup "lang" "grp_lang", newGroup "extras" "grp_extras",
    newGroup "setup" "grp_setup", [], []⟩

def Repack.addLang (r : Repack) (key label code : Text) (f : File) : Repack :=
  { r with langChips := addTo r.langChips key label code f, langs := add r.langs f }

def Repack.addExtra (r : Repack) (label : Text) (f : File) : Repack :=
  { r with extraChips := addTo r.extraChips label label [] f, extras := add r.extras f }

variable (names : Names)

def Repack.addRest (r : Repack) (lower : Text) (f : File) : Repack :=
  if isInstaller lower then { r with setup := add r.setup f } else { r with game := add r.game f }

-- English is in the game data where it has no files of its own.
def Repack.groups (r : Repack) : List Group :=
  if r.langChips = [] ∧ r.extraChips = [] then []
  else
    let en : Chip := ⟨"English".toList, "en".toList, [], 0, true⟩
    let langChips := SortedMap.values r.langChips
    let langs := { r.langs with
      chips :=
        if r.langChips ≠ [] ∧ SortedMap.contains (Text.utf16 "en".toList) r.langChips = false then en :: langChips
        else langChips }
    let extras := { r.extras with chips := SortedMap.values r.extraChips }
    [r.game, langs, extras, r.setup].filter fun g => g.files ≠ []

def fitgirlStep (r : Repack) (f : File) : Repack :=
  let name := baseName f.path
  let lower := names.toLower name
  match selective name with
  | some token =>
      let l := languageFromToken names token
      r.addLang (if l.code = [] then names.toLower token else l.code)
        (if l.label = [] then extraLabel names token else l.label) l.code f
  | none =>
      match optional name with
      | some token => r.addExtra (extraLabel names token) f
      | none => r.addRest lower f

def fitgirl (files : List File) : List Group := (files.foldl (fitgirlStep names) Repack.empty).groups

def dodiStep (r : Repack) (f : File) : Repack :=
  let name := baseName f.path
  let lower := names.toLower name
  let lowerPath := names.toLower f.path
  let l := languageFromToken names (left name (name.length - 4))
  if lowerExt names name = "doi".toList ∧ l.code ≠ [] then r.addLang l.code l.label l.code f
  else
    let sounds := contains lowerPath "soundtrack".toList || contains lowerPath "/ost/".toList
    if contains lowerPath "bonus".toList || sounds || contains lowerPath "artbook".toList then
      r.addExtra (extraLabel names (if sounds then "soundtrack".toList
        else if contains lowerPath "artbook".toList then "artbook".toList else "bonus".toList)) f
    else r.addRest lower f

def dodi (files : List File) : List Group := (files.foldl (dodiStep names) Repack.empty).groups

structure Pack where
  bySeason : List (Int × Group)
  videos : Nat
  placed : Nat

def newSeason (season : Int) : Group := ⟨"season".toList, 'S' :: pad2 season, season, [], 0, []⟩

def isEpisode (f : File) : Bool :=
  isVideo (lowerExt names (baseName f.path)) && 0 < (names.parse (baseName f.path)).episode

def addEpisode (episode : Int) (f : File) (g : Group) : Group :=
  { add g f with chips := g.chips ++ [chipFor f ('E' :: pad2 episode) []] }

def seasonsStep (p : Pack) (f : File) : Pack :=
  let name := baseName f.path
  if isVideo (lowerExt names name) = false then p
  else
    let pn := names.parse name
    if pn.episode ≤ 0 then { p with videos := p.videos + 1 }
    else
      let season := if 0 < pn.season then pn.season else 1
      { bySeason := SortedMap.alter season (fun had => addEpisode pn.episode f (had.getD (newSeason season))) p.bySeason,
        videos := p.videos + 1, placed := p.placed + 1 }

def sorted (g : Group) : Group :=
  { g with chips := g.chips.insertionSort fun a b => Text.utf16 a.label ≤ Text.utf16 b.label }

-- What no season has rides with the first one.
def rideStep (out : List Group) (f : File) : List Group :=
  if out.any fun g => f.index ∈ g.files then out
  else
    match out with
    | [] => []
    | g :: rest => add g f :: rest

-- Nearly all of the videos of a pack are episodes: four out of five.
def seasons (files : List File) : List Group :=
  let p := files.foldl (seasonsStep names) ⟨[], 0, 0⟩
  if p.placed < 2 ∨ 5 * p.placed < 4 * p.videos then []
  else
    let out := files.foldl rideStep ((SortedMap.values p.bySeason).map sorted)
    if 1 < out.length ∨ (out.length = 1 ∧ ∀ g ∈ out.head?, 1 < g.chips.length) then out else []

structure Film where
  main : Group
  side : Group
  videos : Nat

def isSide (ext : Text) : Bool :=
  ["srt", "ass", "ssa", "sub", "idx", "sup", "vtt", "mka", "ac3", "eac3", "dts", "aac", "flac"].any
    (String.toList · == ext)

def filmStep (s : Film) (f : File) : Film :=
  let name := baseName f.path
  let ext := lowerExt names name
  if isSide ext then
    let label := left name (name.length - ext.length - 1)
    let label := if '.' ∈ label then label.rtakeWhile (· ≠ '.') else label
    let l := languageFromToken names label
    let chip := chipFor f ((if l.label = [] then label else l.label) ++ " · ".toList ++ ext) l.code
    { s with side := { add s.side f with chips := s.side.chips ++ [chip] } }
  else { s with videos := if isVideo ext then s.videos + 1 else s.videos, main := add s.main f }

def filmExtras (files : List File) : List Group :=
  let s := files.foldl (filmStep names) ⟨newGroup "game" "grp_main", newGroup "subs" "grp_subs", 0⟩
  if s.videos ≠ 1 ∨ s.side.files.length < 2 then [] else [s.main, s.side]

def group (files : List File) (torrentName : Text) : List Group :=
  if files.length < 2 then []
  else
    let n := names.toLower torrentName
    let base := fun f : File => names.toLower (baseName f.path)
    let fg := contains n "fitgirl".toList || files.any fun f => startsWith (base f) "fg-".toList
    let doi := contains n "dodi".toList || files.any fun f => endsWith (base f) ".doi".toList
    if fg ∧ fitgirl names files ≠ [] then fitgirl names files
    else if doi ∧ dodi names files ≠ [] then dodi names files
    else if seasons names files ≠ [] then seasons names files
    else filmExtras names files

end Passes

end BATorrent.FileGroups
