import BATorrent.Lib.Run
import BATorrent.Services.AchievementFormats
import Mathlib.Data.List.Lex
import Mathlib.Data.List.Sort
import Mathlib.Data.Prod.Lex

namespace BATorrent.AchievementWatch

open Lib
open Lib.DataStream (Bytes)
open AchievementFormats (Text Unlocks Format Document parse)

section Files

structure Candidate where
  path : Text
  format : Format

def kMaxFile : Nat := 4 * 1024 * 1024

-- What a look at the disk finds: the files that could hold unlocks of a game, and the file at a path as the
-- i-th of them is read. The game writes its files meanwhile.
structure Look where
  candidates : Int → Text → List Candidate
  file : Nat → Text → Option Bytes

def readCapped (file : Option Bytes) : Bytes :=
  match file with
  | none => []
  | some bytes => if kMaxFile < bytes.length then [] else bytes

-- The earliest known time is kept.
def merge (out : Unlocks) (got : Σ _ : Text, Int) : Unlocks :=
  match out.lookup got.1 with
  | none => out.insert got.1 got.2
  | some had => if 0 < got.2 ∧ (had = 0 ∨ got.2 < had) then out.insert got.1 got.2 else out

variable (fromJson : Bytes → Document) (repaired : Bytes → Text)

def readFile (file : Nat → Text → Option Bytes) (out : Unlocks) (c : Candidate × Nat) : Unlocks :=
  let bytes := readCapped (file c.2 c.1.path)
  if bytes = [] then out else (parse fromJson repaired c.1.format bytes).entries.foldl merge out

def readUnlocks (files : List Candidate) (file : Nat → Text → Option Bytes) : Unlocks :=
  files.zipIdx.foldl (readFile fromJson repaired file) ∅

def fresh (before now : Unlocks) : List (Σ _ : Text, Int) :=
  now.entries.filter fun u => (before.lookup u.1).isNone

-- Oldest unlock first.
def newlyUnlocked (before now : Unlocks) : List Text :=
  ((fresh before now).insertionSort fun a b => toLex (a.2, Text.utf16 a.1) ≤ toLex (b.2, Text.utf16 b.1)).map Sigma.fst

end Files

section Watch

def kRescanEvery : Nat := 8

structure Game where
  appId : Int
  dir : Text
  files : List Candidate
  seen : Unlocks
  checks : Nat

abbrev Games := AList fun _ : Text => Game

-- An emission of unlocked.
structure Unlocked where
  key : Text
  appId : Int
  gameDir : Text
  apiNames : List Text

-- A start, a stop, or a tick of the timer, with the look that is taken at each game.
inductive Event where
  | start (key : Text) (appId : Int) (gameDir : Text) (look : Look)
  | stop (key : Text) (look : Look)
  | checkNow (looks : Text → Look)

variable (fromJson : Bytes → Document) (repaired : Bytes → Text)

def Game.filesAt (g : Game) (look : Look) : List Candidate :=
  if (g.checks + 1) % kRescanEvery = 0 then look.candidates g.appId g.dir else g.files

def Game.now (g : Game) (look : Look) : Unlocks := readUnlocks fromJson repaired (g.filesAt look) look.file

def check (key : Text) (g : Game) (look : Look) : Game × List Unlocked :=
  let now := g.now fromJson repaired look
  let fresh := newlyUnlocked g.seen now
  ({ g with files := g.filesAt look, seen := now, checks := g.checks + 1 },
    if fresh = [] then [] else [⟨key, g.appId, g.dir, fresh⟩])

def baseline (appId : Int) (gameDir : Text) (look : Look) : Unlocks :=
  readUnlocks fromJson repaired (look.candidates appId gameDir) look.file

def start (games : Games) (key : Text) (appId : Int) (gameDir : Text) (look : Look) : Games :=
  if appId ≤ 0 ∨ key = [] then games
  else games.insert key
    ⟨appId, gameDir, look.candidates appId gameDir, baseline fromJson repaired appId gameDir look, 0⟩

-- The last look also picks up folders made since the last one.
def Game.stopping (g : Game) : Game := { g with checks := kRescanEvery - 1 }

def stop (games : Games) (key : Text) (look : Look) : Games × List Unlocked :=
  match games.lookup key with
  | none => (games, [])
  | some g => (games.erase key, (check fromJson repaired key g.stopping look).2)

def checkNow (games : Games) (looks : Text → Look) : Games × List Unlocked :=
  (⟨games.entries.map (Sigma.map id fun key g => (check fromJson repaired key g (looks key)).1), by
      rw [List.NodupKeys, List.keys, List.map_map]
      exact games.nodupKeys⟩,
    games.entries.flatMap fun g => (check fromJson repaired g.1 g.2 (looks g.1)).2)

def next (games : Games) : Event → Option (Games × List Unlocked)
  | .start key appId gameDir look => some (start fromJson repaired games key appId gameDir look, [])
  | .stop key look => some (stop fromJson repaired games key look)
  | .checkNow looks => some (checkNow fromJson repaired games looks)

def machine : Machine Games Event Unlocked := ⟨∅, next fromJson repaired⟩

end Watch

open Lib Machine
open AchievementFormats (Text Unlocks Format Document Entry)

section Fresh

variable {before now : Unlocks} {n : Text}

theorem mem_fresh {u : Σ _ : Text, Int} : u ∈ fresh before now ↔ u ∈ now.entries ∧ u.1 ∉ before := by
  rw [fresh, List.mem_filter, Option.isNone_iff_eq_none, AList.lookup_eq_none]

theorem mem_newlyUnlocked : n ∈ newlyUnlocked before now ↔ n ∈ now ∧ n ∉ before := by
  rw [newlyUnlocked, List.mem_map]
  constructor
  · rintro ⟨u, hu, rfl⟩
    rw [List.mem_insertionSort, mem_fresh] at hu
    exact ⟨List.mem_map_of_mem hu.1, hu.2⟩
  · rintro ⟨hnow, hbefore⟩
    obtain ⟨u, hu, rfl⟩ := List.mem_map.mp hnow
    refine ⟨u, ?_, rfl⟩
    rw [List.mem_insertionSort, mem_fresh]
    exact ⟨hu, hbefore⟩

theorem nodup_newlyUnlocked (before now : Unlocks) : (newlyUnlocked before now).Nodup := by
  have hperm : (newlyUnlocked before now).Perm ((fresh before now).map Sigma.fst) :=
    (List.perm_insertionSort _ _).map Sigma.fst
  rw [hperm.nodup_iff]
  have hkeys : (fresh before now).NodupKeys := now.nodupKeys.sublist List.filter_sublist
  exact hkeys

end Fresh

section Sessions

variable (fromJson : Bytes → Document) (repaired : Bytes → Text)

-- What readUnlocks returned as this event started the game, if it did.
def started (key : Text) : Event → Option Unlocks
  | .start k appId gameDir look =>
      if k = key ∧ ¬ (appId ≤ 0 ∨ k = []) then some (baseline fromJson repaired appId gameDir look) else none
  | _ => none

-- What it returns at the look that this event takes at the game.
def looked (key : Text) (games : Games) : Event → Option Unlocks
  | .start _ _ _ _ => none
  | .stop k look =>
      if k = key then (games.lookup key).map fun g => g.stopping.now fromJson repaired look else none
  | .checkNow looks => (games.lookup key).map fun g => g.now fromJson repaired (looks key)

-- What it has returned since the game was started, newest first.
def reads (key : Text) : List (Reaction Games Event Unlocked) → List Unlocks
  | [] => []
  | r :: past =>
      match started fromJson repaired key r.event with
      | some b => [b]
      | none => (looked fromJson repaired key r.before r.event).toList ++ reads key past

def named (key : Text) (out : List Unlocked) : List Text :=
  (out.filter fun o => o.key = key).flatMap Unlocked.apiNames

-- The unlocks announced since the game was started.
def told (key : Text) : List (Reaction Games Event Unlocked) → List Text
  | [] => []
  | r :: past =>
      match started fromJson repaired key r.event with
      | some _ => []
      | none => named key r.out ++ told key past

-- Each unlock is announced once, and none that was there at the start.
def Once (past : List (Reaction Games Event Unlocked)) (r : Reaction Games Event Unlocked) : Prop :=
  ∀ key, (named key r.out).Nodup ∧ ∀ n ∈ named key r.out,
    n ∉ told fromJson repaired key past ∧ ∀ b ∈ (reads fromJson repaired key past).getLast?, n ∉ b

-- No unlock that was read since the start and was gone at the last read is back.
def NoneBack (past : List (Reaction Games Event Unlocked)) (r : Reaction Games Event Unlocked) : Prop :=
  ∀ key, ∀ now ∈ looked fromJson repaired key r.before r.event, ∀ n ∈ now,
    (∃ earlier ∈ reads fromJson repaired key past, n ∈ earlier) →
      ∃ last ∈ (reads fromJson repaired key past).head?, n ∈ last

end Sessions

section Step

variable {fromJson : Bytes → Document} {repaired : Bytes → Text} {games games' : Games} {e : Event}
  {out : List Unlocked} {key : Text}

theorem named_append (o p : List Unlocked) : named key (o ++ p) = named key o ++ named key p := by
  rw [named, List.filter_append, List.flatMap_append]
  rfl

theorem named_check (k : Text) (g : Game) (look : Look) : named key (check fromJson repaired k g look).2 =
    if k = key then newlyUnlocked g.seen (g.now fromJson repaired look) else [] := by
  unfold check
  by_cases hfresh : newlyUnlocked g.seen (g.now fromJson repaired look) = []
  · simp [hfresh, named]
  · by_cases hkey : k = key
    · simp [hfresh, named, hkey]
    · simp [hfresh, named, hkey]

-- The games have distinct keys, so one of them at most is announced under a key.
theorem named_checks (looks : Text → Look) {l : List (Σ _ : Text, Game)} (hkeys : l.NodupKeys) :
    named key (l.flatMap fun g => (check fromJson repaired g.1 g.2 (looks g.1)).2) =
      match l.dlookup key with
      | some g => newlyUnlocked g.seen (g.now fromJson repaired (looks key))
      | none => [] := by
  induction l with
  | nil => rfl
  | cons g l ih =>
      obtain ⟨k, g⟩ := g
      obtain ⟨hnot, hrest⟩ := List.nodupKeys_cons.mp hkeys
      rw [List.flatMap_cons, named_append, named_check, ih hrest]
      by_cases hkey : k = key
      · subst hkey
        have hnone : l.dlookup k = none := List.dlookup_eq_none.mpr hnot
        rw [if_pos rfl, hnone, List.dlookup_cons_eq]
        exact List.append_nil _
      · rw [if_neg hkey, List.dlookup_cons_ne _ _ (Ne.symm hkey), List.nil_append]

-- What one event does to one game, and what it announces of it.
inductive Step (fromJson : Bytes → Document) (repaired : Bytes → Text) (key : Text) (games games' : Games) (e : Event)
    (out : List Unlocked) : Prop
  | starts (b : Unlocks) (g : Game) (hstarted : started fromJson repaired key e = some b)
      (hlooked : looked fromJson repaired key games e = none) (hnamed : named key out = [])
      (hgame : games'.lookup key = some g) (hseen : g.seen = b)
  | looks (g : Game) (now : Unlocks) (hstarted : started fromJson repaired key e = none)
      (hlooked : looked fromJson repaired key games e = some now) (hgame : games.lookup key = some g)
      (hnamed : named key out = newlyUnlocked g.seen now)
      (hseen : ∀ g', games'.lookup key = some g' → g'.seen = now)
  | skips (hstarted : started fromJson repaired key e = none)
      (hlooked : looked fromJson repaired key games e = none) (hnamed : named key out = [])
      (hsame : games'.lookup key = games.lookup key)

theorem step_cases (hnext : next fromJson repaired games e = some (games', out)) (key : Text) :
    Step fromJson repaired key games games' e out := by
  cases e with
  | start k appId gameDir look =>
      obtain ⟨rfl, rfl⟩ := Prod.mk.inj (Option.some.inj hnext)
      unfold start
      by_cases hrefused : appId ≤ 0 ∨ k = []
      · rw [if_pos hrefused]
        exact .skips (if_neg fun h => h.2 hrefused) rfl rfl rfl
      · rw [if_neg hrefused]
        by_cases hkey : k = key
        · subst hkey
          exact .starts _ _ (if_pos ⟨rfl, hrefused⟩) rfl rfl (AList.lookup_insert _) rfl
        · exact .skips (if_neg fun h => hkey h.1) rfl rfl (AList.lookup_insert_ne (Ne.symm hkey))
  | stop k look =>
      obtain rfl : (stop fromJson repaired games k look).1 = games' := congrArg Prod.fst (Option.some.inj hnext)
      obtain rfl : (stop fromJson repaired games k look).2 = out := congrArg Prod.snd (Option.some.inj hnext)
      unfold stop
      cases hgame : games.lookup k with
      | none =>
          refine .skips rfl ?_ rfl rfl
          rw [looked]
          split_ifs with hkey
          · rw [← hkey, hgame]
            rfl
          · rfl
      | some g =>
          dsimp only
          by_cases hkey : k = key
          · subst hkey
            refine .looks g (g.stopping.now fromJson repaired look) rfl ?_ hgame ?_ fun g' hg' => ?_
            · rw [looked, if_pos rfl, hgame]
              rfl
            · rw [named_check, if_pos rfl]
              rfl
            · rw [AList.lookup_erase] at hg'
              exact absurd hg' nofun
          · refine .skips rfl (if_neg hkey) ?_ (AList.lookup_erase_ne (Ne.symm hkey))
            rw [named_check, if_neg hkey]
  | checkNow looks =>
      obtain rfl : (checkNow fromJson repaired games looks).1 = games' := congrArg Prod.fst (Option.some.inj hnext)
      obtain rfl : (checkNow fromJson repaired games looks).2 = out := congrArg Prod.snd (Option.some.inj hnext)
      have hnamed := @named_checks fromJson repaired key looks games.entries games.nodupKeys
      have hafter : (checkNow fromJson repaired games looks).1.lookup key =
          (games.lookup key).map fun g => (check fromJson repaired key g (looks key)).1 :=
        List.dlookup_map₂ key
      cases hgame : games.lookup key with
      | none =>
          rw [AList.lookup] at hgame
          rw [hgame] at hnamed
          refine .skips rfl ?_ hnamed ?_
          · rw [looked, AList.lookup, hgame]
            rfl
          · rw [hafter, AList.lookup, hgame]
            rfl
      | some g =>
          refine .looks g (g.now fromJson repaired (looks key)) rfl ?_ hgame ?_ fun g' hg' => ?_
          · rw [looked, hgame]
            rfl
          · rw [AList.lookup] at hgame
            rw [hgame] at hnamed
            exact hnamed
          · rw [hafter, hgame] at hg'
            rw [← Option.some.inj hg']
            rfl

end Step

section Runs

variable {fromJson : Bytes → Document} {repaired : Bytes → Text} {past : List (Reaction Games Event Unlocked)}
  {games games' : Games} {e : Event} {out : List Unlocked} {key : Text}

-- The last read of a watched game is what the watch has seen, and what was ever read of it since the start
-- has been announced or was there at the start.
def Accounted (fromJson : Bytes → Document) (repaired : Bytes → Text)
    (past : List (Reaction Games Event Unlocked)) (games : Games) : Prop :=
  ∀ key g, games.lookup key = some g → (reads fromJson repaired key past).head? = some g.seen ∧
    ∀ n, (∃ earlier ∈ reads fromJson repaired key past, n ∈ earlier) ↔
      n ∈ told fromJson repaired key past ∨ ∃ b ∈ (reads fromJson repaired key past).getLast?, n ∈ b

theorem accounted_next (hacc : Accounted fromJson repaired past games)
    (hnext : next fromJson repaired games e = some (games', out)) :
    Accounted fromJson repaired (⟨games, e, out⟩ :: past) games' := by
  intro key g' hg'
  cases step_cases hnext key with
  | starts b g hstarted _ _ hgame hseen =>
      obtain rfl : g = g' := Option.some.inj (hgame.symm.trans hg')
      rw [reads, told, hstarted, hseen]
      refine ⟨rfl, fun n => ?_⟩
      simp
  | looks g now hstarted hlooked hgame hnamed hseen =>
      obtain ⟨hhead, hread⟩ := hacc key g hgame
      obtain ⟨older, hreads⟩ : ∃ older, reads fromJson repaired key past = g.seen :: older := by
        cases hcases : reads fromJson repaired key past with
        | nil =>
            rw [hcases] at hhead
            exact absurd hhead nofun
        | cons last older =>
            rw [hcases] at hhead
            exact ⟨older, by rw [Option.some.inj hhead]⟩
      rw [reads, told, hstarted]
      dsimp only
      rw [hlooked, hnamed, hseen g' hg']
      refine ⟨rfl, fun n => ?_⟩
      have hlast : (now :: reads fromJson repaired key past).getLast? = (reads fromJson repaired key past).getLast? := by
        rw [hreads, List.getLast?_cons_cons]
      rw [Option.toList_some, List.singleton_append, hlast, List.mem_append, mem_newlyUnlocked,
        List.exists_mem_cons_iff, or_assoc, ← hread n]
      constructor
      · rintro (hnow | hearlier)
        · by_cases hold : n ∈ g.seen
          · exact .inr ⟨g.seen, hreads ▸ List.mem_cons_self, hold⟩
          · exact .inl ⟨hnow, hold⟩
        · exact .inr hearlier
      · exact Or.imp_left And.left
  | skips hstarted hlooked hnamed hsame =>
      rw [reads, told, hstarted]
      dsimp only
      rw [hlooked, hnamed]
      exact hacc key g' (hsame.symm.trans hg')

theorem accounted_run (hrun : (machine fromJson repaired).Run (fun _ _ => True) past games) :
    Accounted fromJson repaired past games := by
  refine Run.invariant_past (Accounted fromJson repaired) ?_ ?_ hrun
  · intro key g hg
    exact absurd hg nofun
  · intro past games e games' out hacc _ hnext
    exact accounted_next hacc hnext

theorem once_iff (hacc : Accounted fromJson repaired past games)
    (hnext : next fromJson repaired games e = some (games', out)) :
    Once fromJson repaired past ⟨games, e, out⟩ ↔ NoneBack fromJson repaired past ⟨games, e, out⟩ := by
  constructor
  · intro honce key now hnow n hn hearlier
    cases step_cases hnext key with
    | starts _ _ _ hlooked _ _ _ => exact absurd (hlooked.symm.trans hnow) nofun
    | skips _ hlooked _ _ => exact absurd (hlooked.symm.trans hnow) nofun
    | looks g now' _ hlooked hgame hnamed _ =>
        obtain rfl : now' = now := Option.some.inj (hlooked.symm.trans hnow)
        obtain ⟨hhead, hread⟩ := hacc key g hgame
        refine ⟨g.seen, hhead, ?_⟩
        by_contra hgone
        have hmem : n ∈ named key out := hnamed ▸ mem_newlyUnlocked.mpr ⟨hn, hgone⟩
        obtain ⟨htold, hbaseline⟩ := (honce key).2 n hmem
        rcases (hread n).mp hearlier with htold' | ⟨b, hb, hnb⟩
        · exact htold htold'
        · exact hbaseline b hb hnb
  · intro hback key
    cases step_cases hnext key with
    | starts _ _ _ _ hnamed _ _ =>
        rw [hnamed]
        exact ⟨List.nodup_nil, fun n hn => absurd hn List.not_mem_nil⟩
    | skips _ _ hnamed _ =>
        rw [hnamed]
        exact ⟨List.nodup_nil, fun n hn => absurd hn List.not_mem_nil⟩
    | looks g now _ hlooked hgame hnamed _ =>
        rw [hnamed]
        refine ⟨nodup_newlyUnlocked _ _, fun n hn => ?_⟩
        obtain ⟨hnow, hgone⟩ := mem_newlyUnlocked.mp hn
        obtain ⟨hhead, hread⟩ := hacc key g hgame
        have hnot : ¬ ∃ earlier ∈ reads fromJson repaired key past, n ∈ earlier := by
          intro hearlier
          obtain ⟨last, hlast, hmem⟩ := hback key now hlooked n hnow hearlier
          obtain rfl : g.seen = last := Option.some.inj (hhead.symm.trans hlast)
          exact hgone hmem
        rw [hread n, not_or] at hnot
        exact ⟨hnot.1, fun b hb hnb => hnot.2 ⟨b, hb, hnb⟩⟩

-- In a run each unlock is announced once just when none comes back after it was gone.
theorem announced_once_iff (hrun : (machine fromJson repaired).Run (fun _ _ => True) past games) :
    eachStep (fun past r _ => Once fromJson repaired past r) past games ↔
      eachStep (fun past r _ => NoneBack fromJson repaired past r) past games :=
  Run.eachStep_iff (fun _ _ _ _ _ hrun _ hnext _ => once_iff (accounted_run hrun) hnext) hrun

end Runs

section Rewritten

def written : Bytes := ByteText.ascii "\x7b\"A\":\x7b\"earned\":true\x7d\x7d"

-- How that file reads, and how one reads that is no document.
def reader (bytes : Bytes) : Document :=
  if bytes = written then .object [(['A'], ⟨[], .inl true, 0⟩)] else .object []

def holding (file : Option Bytes) : Look := ⟨fun _ _ => [⟨['f'], .goldbergJson⟩], fun _ _ => file⟩

def play (file : Option Bytes) : Event := .start ['g'] 10 [] (holding file)

def poll (file : Option Bytes) : Event := .checkNow fun _ => holding file

theorem announced_once_written : ∃ past games, (machine reader fun _ => []).Run (fun _ _ => True) past games ∧
    (log past).map Unlocked.apiNames = [[['A']]] ∧ eachStep (fun past r _ => Once reader (fun _ => []) past r) past games := by
  have hinit : (machine reader fun _ => []).Run (fun _ _ => True) [] ∅ := .init
  have hplay := hinit.extend (play none) trivial rfl
  have hpoll := hplay.extend (poll (some written)) trivial rfl
  refine ⟨_, _, hpoll, by decide +kernel, (announced_once_iff hpoll).mpr ⟨?_, ?_, trivial⟩⟩
  · rintro key now - n - ⟨earlier, hread, hn⟩
    have hempty : earlier = ∅ := by
      by_cases hkey : ['g'] = key
      · subst hkey
        exact List.mem_singleton.mp hread
      · rw [reads, play, started, if_neg fun h => hkey h.1] at hread
        exact absurd hread List.not_mem_nil
    rw [hempty] at hn
    exact absurd hn (AList.notMem_empty n)
  · rintro key now hnow
    exact absurd hnow nofun

-- The file is gone for one check, and what was there at the start is announced.
theorem announces_baseline : ∃ past games, (machine reader fun _ => []).Run (fun _ _ => True) past games ∧
    ¬ eachStep (fun past r _ => Once reader (fun _ => []) past r) past games := by
  have hinit : (machine reader fun _ => []).Run (fun _ _ => True) [] ∅ := .init
  have hplay := hinit.extend (play (some written)) trivial rfl
  have hgone := hplay.extend (poll none) trivial rfl
  have hback := hgone.extend (poll (some written)) trivial rfl
  refine ⟨_, _, hback, fun honce => ?_⟩
  have hnew := (honce.1 ['g']).2 ['A'] (by decide +kernel)
  exact hnew.2 (baseline reader (fun _ => []) 10 [] (holding (some written))) rfl (by decide +kernel)

end Rewritten

end BATorrent.AchievementWatch
