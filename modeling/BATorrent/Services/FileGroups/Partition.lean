import BATorrent.Services.FileGroups
import Mathlib.Algebra.BigOperators.Group.List.Basic
import Mathlib.Data.List.Forall2
import Mathlib.Algebra.Ring.Int.Defs

namespace BATorrent.FileGroups

open Lib

section Carried

variable {g : Group} {fs files done : List File} {groups pre post : List Group} {f : File}

structure Group.Holds (g : Group) (fs : List File) : Prop where
  files : g.files = fs.map File.index
  size : g.size = (fs.map File.size).sum

-- The groups hold these files, each file once.
def Carried (groups : List Group) (files : List File) : Prop :=
  ∃ parts : List (List File), List.Forall₂ Group.Holds groups parts ∧ parts.flatten.Perm files

theorem exists_of_forall₂_append {α β : Type*} {R : α → β → Prop} {l l' : List α} : ∀ {m : List β},
    List.Forall₂ R (l ++ l') m → ∃ k k', List.Forall₂ R l k ∧ List.Forall₂ R l' k' ∧ m = k ++ k' := by
  induction l with
  | nil => exact fun h => ⟨[], _, .nil, h, rfl⟩
  | cons a l ih =>
      intro m h
      cases h with
      | cons hab hrest =>
          obtain ⟨k, k', hk, hk', rfl⟩ := ih hrest
          exact ⟨_ :: k, k', .cons hab hk, hk', rfl⟩

theorem holds_add (h : g.Holds fs) (f : File) : (add g f).Holds (fs ++ [f]) where
  files := by
    rw [List.map_append]
    exact congrArg (· ++ [f.index]) h.files
  size := by
    rw [List.map_append, List.sum_append, List.map_singleton, List.sum_singleton]
    exact congrArg (· + f.size) h.size

theorem holds_empty (h : g.files = []) (hsize : g.size = 0) : g.Holds [] := ⟨h, hsize⟩

theorem Carried.perm (h : Carried groups files) {files' : List File} (hperm : files.Perm files') :
    Carried groups files' := by
  obtain ⟨parts, hparts, hflat⟩ := h
  exact ⟨parts, hparts, hflat.trans hperm⟩

-- Only the files of the groups and their sizes matter, not their chips.
theorem Carried.congr (h : Carried groups files) {groups' : List Group}
    (hsame : List.Forall₂ (fun g g' : Group => g'.files = g.files ∧ g'.size = g.size) groups groups') :
    Carried groups' files := by
  obtain ⟨parts, hparts, hflat⟩ := h
  refine ⟨parts, ?_, hflat⟩
  clear hflat
  induction hsame generalizing parts with
  | nil => exact hparts
  | cons hgg _ ih =>
      cases hparts with
      | cons hg hrest => exact .cons ⟨hgg.1.trans hg.files, hgg.2.trans hg.size⟩ (ih _ hrest)

-- One group takes one more file.
theorem Carried.add (h : Carried (pre ++ g :: post) files) {g' : Group} (f : File)
    (hfiles : g'.files = g.files ++ [f.index]) (hsize : g'.size = g.size + f.size) :
    Carried (pre ++ g' :: post) (files ++ [f]) := by
  obtain ⟨parts, hparts, hflat⟩ := h
  obtain ⟨before, rest, hpre, hrest, rfl⟩ := exists_of_forall₂_append hparts
  cases hrest with
  | @cons _ fs _ after hg hpost =>
      have hheld := holds_add hg f
      have hg' : g'.Holds (fs ++ [f]) := ⟨hfiles.trans hheld.files, hsize.trans hheld.size⟩
      refine ⟨before ++ (fs ++ [f]) :: after, List.rel_append hpre (.cons hg' hpost), ?_⟩
      refine List.Perm.trans ?_ (hflat.append_right [f])
      simp only [List.flatten_append, List.flatten_cons, List.append_assoc]
      refine List.Perm.append_left _ (List.Perm.append_left _ ?_)
      exact List.perm_append_comm

-- A new group starts with one file.
theorem Carried.insert (h : Carried (pre ++ post) files) {g' : Group} (f : File)
    (hfiles : g'.files = [f.index]) (hsize : g'.size = f.size) : Carried (pre ++ g' :: post) (files ++ [f]) := by
  have hempty : Carried (pre ++ { g' with files := [], size := 0 } :: post) files := by
    obtain ⟨parts, hparts, hflat⟩ := h
    obtain ⟨before, after, hpre, hpost, rfl⟩ := exists_of_forall₂_append hparts
    exact ⟨before ++ [] :: after, List.rel_append hpre (.cons (holds_empty rfl rfl) hpost), by simpa using hflat⟩
  exact hempty.add f hfiles (hsize.trans (zero_add f.size).symm)

-- Groups with no files can be left out.
theorem Carried.filter (h : Carried groups files) : Carried (groups.filter fun g => g.files ≠ []) files := by
  obtain ⟨parts, hparts, hflat⟩ := h
  have hkept : ∃ kept : List (List File), List.Forall₂ Group.Holds (groups.filter fun g => g.files ≠ []) kept ∧
      kept.flatten = parts.flatten := by
    clear hflat
    induction hparts with
    | nil => exact ⟨[], .nil, rfl⟩
    | @cons g fs _ _ hg _ ih =>
        obtain ⟨kept, hkept, hsame⟩ := ih
        by_cases hempty : g.files = []
        · have hfs : fs = [] := List.map_eq_nil_iff.mp (hg.files.symm.trans hempty)
          refine ⟨kept, ?_, ?_⟩
          · rw [List.filter_cons_of_neg (by simpa using hempty)]
            exact hkept
          · rw [hsame, List.flatten_cons, hfs, List.nil_append]
        · refine ⟨fs :: kept, ?_, congrArg (fs ++ ·) hsame⟩
          rw [List.filter_cons_of_pos (by simpa using hempty)]
          exact .cons hg hkept
  obtain ⟨kept, hholds, hsame⟩ := hkept
  exact ⟨kept, hholds, hsame ▸ hflat⟩

theorem Carried.indices (h : Carried groups files) : (groups.flatMap Group.files).Perm (files.map File.index) := by
  obtain ⟨parts, hparts, hflat⟩ := h
  have hsame : groups.flatMap Group.files = parts.flatten.map File.index := by
    clear hflat
    induction hparts with
    | nil => rfl
    | cons hg _ ih => rw [List.flatMap_cons, List.flatten_cons, List.map_append, ih, hg.files]
  rw [hsame]
  exact hflat.map File.index

end Carried

section Partition

structure Partition (files : List File) (groups : List Group) : Prop where
  nonempty : ∀ g ∈ groups, g.files ≠ []
  covers : (groups.flatMap Group.files).Perm (files.map File.index)
  disjoint : groups.Pairwise fun g g' => g.files.Disjoint g'.files
  sizes : ∀ g ∈ groups, g.size = ((files.filter fun f => f.index ∈ g.files).map File.size).sum
  chips : ∀ g ∈ groups, g.chips.Pairwise (fun c c' => c.files.Disjoint c'.files) ∧
    ∀ c ∈ g.chips, c.files.Nodup ∧ c.files ⊆ g.files

-- The files behind the chips are files of the group, each at most once.
def Chipped (g : Group) : Prop := (g.chips.flatMap Chip.files).Subperm g.files

variable {files : List File} {groups : List Group}

theorem size_of_holds {g : Group} {fs : List File} (hdistinct : (files.map File.index).Nodup) (hg : g.Holds fs)
    (hsub : fs.Subperm files) : g.size = ((files.filter fun f => f.index ∈ g.files).map File.size).sum := by
  have hinj : ∀ f ∈ files, ∀ f' ∈ files, f.index = f'.index → f = f' := fun f hf f' hf' =>
    List.inj_on_of_nodup_map hdistinct hf hf'
  have hnodup : files.Nodup := List.Nodup.of_map _ hdistinct
  obtain ⟨fs', hperm, hsublist⟩ := hsub
  have hfs : fs.Nodup := hperm.nodup_iff.mp (hnodup.sublist hsublist)
  have hsame : fs.Perm (files.filter fun f => f.index ∈ g.files) := by
    refine (List.perm_ext_iff_of_nodup hfs (hnodup.filter _)).mpr fun f => ?_
    rw [List.mem_filter, decide_eq_true_eq, hg.files, List.mem_map]
    constructor
    · intro hf
      exact ⟨hsublist.subset (hperm.mem_iff.mpr hf), f, hf, rfl⟩
    · rintro ⟨hf, f', hf', hindex⟩
      rw [← hinj f' (hsublist.subset (hperm.mem_iff.mpr hf')) f hf hindex]
      exact hf'
  rw [hg.size]
  exact (hsame.map File.size).sum_eq

theorem partition_of_carried (hdistinct : (files.map File.index).Nodup) (hcarried : Carried groups files)
    (hchipped : ∀ g ∈ groups, Chipped g) (hnonempty : ∀ g ∈ groups, g.files ≠ []) : Partition files groups := by
  have hcovers := hcarried.indices
  have hnodup : (groups.flatMap Group.files).Nodup := hcovers.nodup_iff.mpr hdistinct
  obtain ⟨hfiles, hdisjoint⟩ := List.nodup_flatMap.mp hnodup
  refine ⟨hnonempty, hcovers, hdisjoint, fun g hg => ?_, fun g hg => ?_⟩
  · obtain ⟨parts, hparts, hflat⟩ := hcarried
    obtain ⟨fs, hmem, hheld⟩ : ∃ fs ∈ parts, g.Holds fs := by
      obtain ⟨i, hi, rfl⟩ := List.mem_iff_getElem.mp hg
      have hlen := hparts.length_eq
      exact ⟨parts[i], List.getElem_mem _, hparts.get hi (hlen ▸ hi)⟩
    exact size_of_holds hdistinct hheld ((List.sublist_flatten_of_mem hmem).subperm.trans hflat.subperm)
  · have hsub := hchipped g hg
    have hflat : (g.chips.flatMap Chip.files).Nodup := by
      obtain ⟨l, hperm, hsublist⟩ := hsub
      exact hperm.nodup_iff.mp ((hfiles g hg).sublist hsublist)
    obtain ⟨hchips, hpairwise⟩ := List.nodup_flatMap.mp hflat
    refine ⟨hpairwise, fun c hc => ⟨hchips c hc, fun i hi => ?_⟩⟩
    exact hsub.subset (List.mem_flatMap.mpr ⟨c, hc, hi⟩)

theorem chipped_nil {g : Group} (h : g.chips = []) : Chipped g := by
  rw [Chipped, h]
  exact List.nil_subperm

end Partition

section Repacks

variable {names : Names} {r : Repack} {chips : ChipMap} {key label lang lower : Text} {f : File} {done : List File}

def behind (chips : ChipMap) : List Int := (SortedMap.values chips).flatMap Chip.files

theorem behind_addTo : (behind (addTo chips key label lang f)).Perm (behind chips ++ [f.index]) := by
  unfold behind addTo
  set become := fun had : Option Chip =>
    let c := had.getD ⟨[], [], [], 0, false⟩
    let c := if c.label = [] then { c with label := label, lang := lang } else c
    { c with files := c.files ++ [f.index], size := c.size + f.size } with hbecome
  have hnew : (become none).files = [f.index] := rfl
  have hhad : ∀ c, (become (some c)).files = c.files ++ [f.index] := by
    intro c
    rw [hbecome]
    dsimp only [Option.getD_some]
    split_ifs <;> rfl
  rcases SortedMap.values_alter (k := Text.utf16 key) (f := become) (m := chips) with
    ⟨l, m, hvalues, hafter⟩ | ⟨l, c, m, hvalues, hafter⟩
  · rw [hvalues, hafter, List.flatMap_append, List.flatMap_append, List.flatMap_cons, hnew, List.append_assoc]
    exact List.Perm.append_left _ List.perm_append_comm
  · rw [hvalues, hafter, List.flatMap_append, List.flatMap_append, List.flatMap_cons, List.flatMap_cons, hhad,
      List.append_assoc, List.append_assoc, List.append_assoc]
    exact List.Perm.append_left _ (List.Perm.append_left _ List.perm_append_comm)

structure Repack.Sound (r : Repack) (done : List File) : Prop where
  carried : Carried [r.game, r.langs, r.extras, r.setup] done
  langs : (behind r.langChips).Perm r.langs.files
  extras : (behind r.extraChips).Perm r.extras.files
  game : r.game.chips = []
  setup : r.setup.chips = []

theorem sound_empty : Repack.empty.Sound [] where
  carried := ⟨[[], [], [], []], .cons ⟨rfl, rfl⟩ (.cons ⟨rfl, rfl⟩ (.cons ⟨rfl, rfl⟩ (.cons ⟨rfl, rfl⟩ .nil))), .nil⟩
  langs := .nil
  extras := .nil
  game := rfl
  setup := rfl

theorem sound_addLang (h : r.Sound done) (key label code : Text) (f : File) :
    (r.addLang key label code f).Sound (done ++ [f]) where
  carried := by
    have hcarried : Carried ([r.game] ++ r.langs :: [r.extras, r.setup]) done := h.carried
    exact hcarried.add f rfl rfl
  langs := behind_addTo.trans (h.langs.append_right _)
  extras := h.extras
  game := h.game
  setup := h.setup

theorem sound_addExtra (h : r.Sound done) (label : Text) (f : File) : (r.addExtra label f).Sound (done ++ [f]) where
  carried := by
    have hcarried : Carried ([r.game, r.langs] ++ r.extras :: [r.setup]) done := h.carried
    exact hcarried.add f rfl rfl
  langs := h.langs
  extras := behind_addTo.trans (h.extras.append_right _)
  game := h.game
  setup := h.setup

theorem sound_addRest (h : r.Sound done) (lower : Text) (f : File) : (r.addRest lower f).Sound (done ++ [f]) := by
  unfold Repack.addRest
  by_cases hinstaller : isInstaller lower
  · rw [if_pos hinstaller]
    have hcarried : Carried ([r.game, r.langs, r.extras] ++ r.setup :: []) done := h.carried
    exact ⟨hcarried.add f rfl rfl, h.langs, h.extras, h.game, h.setup⟩
  · rw [if_neg hinstaller]
    have hcarried : Carried ([] ++ r.game :: [r.langs, r.extras, r.setup]) done := h.carried
    exact ⟨hcarried.add f rfl rfl, h.langs, h.extras, h.game, h.setup⟩

theorem sound_fitgirlStep (h : r.Sound done) (f : File) : (fitgirlStep names r f).Sound (done ++ [f]) := by
  unfold fitgirlStep
  dsimp only
  cases selective (baseName f.path) with
  | some token => exact sound_addLang h _ _ _ f
  | none =>
      dsimp only
      cases optional (baseName f.path) with
      | some token => exact sound_addExtra h _ f
      | none => exact sound_addRest h _ f

theorem sound_dodiStep (h : r.Sound done) (f : File) : (dodiStep names r f).Sound (done ++ [f]) := by
  unfold dodiStep
  dsimp only
  split_ifs
  · exact sound_addLang h _ _ _ f
  all_goals first | exact sound_addExtra h _ f | exact sound_addRest h _ f

theorem sound_fold {step : Repack → File → Repack} (hstep : ∀ {r done}, r.Sound done → ∀ f, (step r f).Sound (done ++ [f]))
    (files : List File) : (files.foldl step Repack.empty).Sound files := by
  induction files using List.reverseRecOn with
  | nil => exact sound_empty
  | append_singleton files f ih =>
      rw [List.foldl_append]
      exact hstep ih f

theorem partition_groups {files : List File} (hdistinct : (files.map File.index).Nodup) (h : r.Sound files) :
    r.groups = [] ∨ Partition files r.groups := by
  unfold Repack.groups
  split_ifs with hnone hen
  · exact .inl rfl
  all_goals
    refine .inr (partition_of_carried hdistinct (Carried.filter (h.carried.congr ?_)) (fun g hg => ?_) fun g hg => ?_)
    · exact .cons ⟨rfl, rfl⟩ (.cons ⟨rfl, rfl⟩ (.cons ⟨rfl, rfl⟩ (.cons ⟨rfl, rfl⟩ .nil)))
    · rcases List.mem_cons.mp (List.mem_filter.mp hg).1 with rfl | hg
      · exact chipped_nil h.game
      rcases List.mem_cons.mp hg with rfl | hg
      · exact h.langs.subperm
      rcases List.mem_cons.mp hg with rfl | hg
      · exact h.extras.subperm
      rw [List.mem_singleton.mp hg]
      exact chipped_nil h.setup
    · exact of_decide_eq_true (List.mem_filter.mp hg).2

end Repacks

section Seasons

variable {names : Names} {p : Pack} {files done placed rest : List File} {f : File} {out : List Group} {g : Group}

structure Pack.Sound (p : Pack) (placed : List File) : Prop where
  carried : Carried (SortedMap.values p.bySeason) placed
  chips : ∀ g ∈ SortedMap.values p.bySeason, g.chips.flatMap Chip.files = g.files
  nonempty : ∀ g ∈ SortedMap.values p.bySeason, g.files ≠ []
  placed : p.placed = placed.length

theorem chips_addEpisode (h : g.chips.flatMap Chip.files = g.files) (episode : Int) :
    (addEpisode episode f g).chips.flatMap Chip.files = (addEpisode episode f g).files := by
  unfold addEpisode
  rw [List.flatMap_append, h]
  rfl

theorem sound_place (h : p.Sound placed) (season episode : Int) (f : File) (videos : Nat) :
    Pack.Sound ⟨SortedMap.alter season (fun had => addEpisode episode f (had.getD (newSeason season))) p.bySeason,
      videos, p.placed + 1⟩ (placed ++ [f]) := by
  set become := fun had : Option Group => addEpisode episode f (had.getD (newSeason season)) with hbecome
  have hnew : (become none).files = [f.index] := rfl
  have hlength : p.placed + 1 = (placed ++ [f]).length := by rw [h.placed, List.length_append, List.length_singleton]
  have hcarried := h.carried
  have hchips := h.chips
  have hnonempty := h.nonempty
  rcases SortedMap.values_alter (k := season) (f := become) (m := p.bySeason) with
    ⟨l, r, hvalues, hafter⟩ | ⟨l, had, r, hvalues, hafter⟩
  · rw [hvalues] at hcarried hchips hnonempty
    rw [List.forall_mem_append] at hchips hnonempty
    refine ⟨hafter ▸ hcarried.insert f hnew (zero_add f.size), hafter ▸ ?_, hafter ▸ ?_, hlength⟩
    · exact List.forall_mem_append.mpr ⟨hchips.1, List.forall_mem_cons.mpr ⟨chips_addEpisode rfl episode, hchips.2⟩⟩
    · refine List.forall_mem_append.mpr ⟨hnonempty.1, List.forall_mem_cons.mpr ⟨?_, hnonempty.2⟩⟩
      exact hnew ▸ List.cons_ne_nil _ _
  · rw [hvalues] at hcarried hchips hnonempty
    rw [List.forall_mem_append, List.forall_mem_cons] at hchips hnonempty
    refine ⟨hafter ▸ hcarried.add f rfl rfl, hafter ▸ ?_, hafter ▸ ?_, hlength⟩
    · refine List.forall_mem_append.mpr ⟨hchips.1, List.forall_mem_cons.mpr ⟨?_, hchips.2.2⟩⟩
      exact chips_addEpisode hchips.2.1 episode
    · refine List.forall_mem_append.mpr ⟨hnonempty.1, List.forall_mem_cons.mpr ⟨?_, hnonempty.2.2⟩⟩
      exact List.append_ne_nil_of_right_ne_nil _ (List.cons_ne_nil _ _)

theorem sound_seasonsStep (h : p.Sound placed) (f : File) :
    (seasonsStep names p f).Sound (placed ++ if isEpisode names f then [f] else []) := by
  unfold seasonsStep isEpisode
  dsimp only
  by_cases hvideo : isVideo (lowerExt names (baseName f.path)) = false
  · rw [if_pos hvideo, hvideo, Bool.false_and, if_neg Bool.false_ne_true, List.append_nil]
    exact h
  · rw [if_neg hvideo, Bool.not_eq_false] at *
    rw [hvideo, Bool.true_and]
    by_cases hepisode : (names.parse (baseName f.path)).episode ≤ 0
    · rw [if_pos hepisode, if_neg (by simpa using hepisode), List.append_nil]
      exact ⟨h.carried, h.chips, h.nonempty, h.placed⟩
    · have hpositive : decide (0 < (names.parse (baseName f.path)).episode) = true := by simpa using hepisode
      rw [if_neg hepisode, hpositive, if_pos rfl]
      exact sound_place h _ _ f _

theorem sound_seasons (files : List File) :
    (files.foldl (seasonsStep names) ⟨[], 0, 0⟩).Sound (files.filter (isEpisode names)) := by
  induction files using List.reverseRecOn with
  | nil => exact ⟨⟨[], .nil, .nil⟩, nofun, nofun, rfl⟩
  | append_singleton files f ih =>
      rw [List.foldl_append, List.filter_append]
      have hlast : [f].filter (isEpisode names) = if isEpisode names f then [f] else [] := by
        rw [List.filter_cons, List.filter_nil]
      rw [hlast]
      exact sound_seasonsStep ih f

structure Rides (out : List Group) (held : List File) : Prop where
  carried : Carried out held
  chips : ∀ g ∈ out, Chipped g
  nonempty : ∀ g ∈ out, g.files ≠ []
  some : out ≠ []

theorem rides_sorted (h : p.Sound placed) (hsome : 2 ≤ p.placed) : Rides ((SortedMap.values p.bySeason).map sorted) placed where
  carried := by
    refine h.carried.congr ?_
    rw [List.forall₂_map_right_iff]
    exact List.forall₂_same.mpr fun g _ => ⟨rfl, rfl⟩
  chips := by
    intro g hg
    obtain ⟨g, hmem, rfl⟩ := List.mem_map.mp hg
    have hperm := (List.perm_insertionSort (fun a b : Chip => Text.utf16 a.label ≤ Text.utf16 b.label) g.chips).flatMap_right
      Chip.files
    exact (hperm.trans (List.Perm.of_eq (h.chips g hmem))).subperm
  nonempty := by
    intro g hg
    obtain ⟨g, hmem, rfl⟩ := List.mem_map.mp hg
    exact h.nonempty g hmem
  some := by
    intro hnone
    obtain ⟨parts, hparts, hflat⟩ := h.carried
    rw [List.map_eq_nil_iff.mp hnone] at hparts
    cases hparts
    have hlength := hflat.length_eq
    have hplaced := h.placed
    rw [List.flatten_nil, List.length_nil] at hlength
    omega

theorem rides_add {held : List File} (h : Rides (g :: out) held) (f : File) : Rides (add g f :: out) (held ++ [f]) where
  carried := by
    have hcarried : Carried ([] ++ g :: out) held := h.carried
    exact hcarried.add f rfl rfl
  chips := by
    obtain ⟨hfirst, hothers⟩ := List.forall_mem_cons.mp h.chips
    refine List.forall_mem_cons.mpr ⟨?_, hothers⟩
    exact hfirst.trans (List.sublist_append_left g.files [f.index]).subperm
  nonempty := by
    obtain ⟨_, hothers⟩ := List.forall_mem_cons.mp h.nonempty
    exact List.forall_mem_cons.mpr ⟨List.append_ne_nil_of_right_ne_nil _ (List.cons_ne_nil _ _), hothers⟩
  some := List.cons_ne_nil _ _

theorem rides_rideStep {held : List File} (h : Rides out held) (f : File) :
    Rides (rideStep out f) (held ++ if f.index ∈ held.map File.index then [] else [f]) := by
  have hused : (out.any fun g => f.index ∈ g.files) = decide (f.index ∈ held.map File.index) := by
    rw [Bool.eq_iff_iff, decide_eq_true_iff, ← h.carried.indices.mem_iff, List.mem_flatMap, List.any_eq_true]
    simp only [decide_eq_true_eq]
  unfold rideStep
  rw [hused]
  by_cases hheld : f.index ∈ held.map File.index
  · rw [if_pos (decide_eq_true hheld), if_pos hheld, List.append_nil]
    exact h
  · rw [if_neg (by simpa using hheld), if_neg hheld]
    cases out with
    | nil => exact absurd rfl h.some
    | cons g out => exact rides_add h f

-- By the time a file is looked at, only the episodes and what came before it are in the groups.
theorem rides_fold (hdistinct : (files.map File.index).Nodup) (isHeld : File → Bool) (hfiles : files = done ++ rest)
    (h : Rides out (files.filter isHeld ++ done.filter fun f => !isHeld f)) :
    Rides (rest.foldl rideStep out) (files.filter isHeld ++ files.filter fun f => !isHeld f) := by
  induction rest generalizing done out with
  | nil =>
      rw [List.append_nil] at hfiles
      rw [hfiles] at h ⊢
      exact h
  | cons f rest ih =>
      have hmem : f ∈ files := hfiles ▸ List.mem_append_right _ List.mem_cons_self
      have hinj : ∀ f' ∈ files, f'.index = f.index → f' = f := fun f' hf' => List.inj_on_of_nodup_map hdistinct hf' hmem
      have hnew : f ∉ done := by
        intro hold
        have hnodup : (done ++ f :: rest).Nodup := hfiles ▸ List.Nodup.of_map _ hdistinct
        exact (List.nodup_append.mp hnodup).2.2 f hold f List.mem_cons_self rfl
      have hheld : f.index ∈ (files.filter isHeld ++ done.filter fun f => !isHeld f).map File.index ↔ isHeld f = true := by
        rw [List.mem_map]
        constructor
        · rintro ⟨f', hf', hindex⟩
          rcases List.mem_append.mp hf' with hplaced | hridden
          · obtain ⟨hin, hyes⟩ := List.mem_filter.mp hplaced
            rw [← hinj f' hin hindex]
            exact hyes
          · obtain ⟨hin, -⟩ := List.mem_filter.mp hridden
            have hsame := hinj f' (hfiles ▸ List.mem_append_left _ hin) hindex
            exact absurd (hsame ▸ hin) hnew
        · exact fun hyes => ⟨f, List.mem_append_left _ (List.mem_filter.mpr ⟨hmem, hyes⟩), rfl⟩
      have hstep := rides_rideStep h f
      refine ih (hfiles.trans (List.append_cons done f rest)) ?_
      rw [List.filter_append, ← List.append_assoc]
      by_cases hyes : isHeld f = true
      · rw [if_pos (hheld.mpr hyes)] at hstep
        simpa [hyes] using hstep
      · rw [if_neg fun hin => hyes (hheld.mp hin)] at hstep
        simpa [hyes] using hstep

theorem partition_seasons (hdistinct : (files.map File.index).Nodup) :
    seasons names files = [] ∨ Partition files (seasons names files) := by
  unfold seasons
  dsimp only
  have hsound : Pack.Sound _ (files.filter (isEpisode names)) := sound_seasons files
  split_ifs with hfew hmany
  · exact .inl rfl
  · have hstart := rides_sorted hsound (by omega)
    have hnone : files = [] ++ files := rfl
    have hall := rides_fold hdistinct (isEpisode names) hnone (by simpa using hstart)
    refine .inr (partition_of_carried hdistinct (hall.carried.perm ?_) hall.chips hall.nonempty)
    exact List.filter_append_perm _ _
  · exact .inl rfl

end Seasons

section Films

variable {names : Names} {s : Film} {files done : List File}

structure Film.Sound (s : Film) (done : List File) : Prop where
  carried : Carried [s.main, s.side] done
  chips : s.side.chips.flatMap Chip.files = s.side.files
  main : s.main.chips = []
  videos : 0 < s.videos → s.main.files ≠ []

theorem sound_filmStep (h : s.Sound done) (f : File) : (filmStep names s f).Sound (done ++ [f]) := by
  unfold filmStep
  dsimp only
  by_cases hside : isSide (lowerExt names (baseName f.path))
  · rw [if_pos hside]
    have hcarried : Carried ([s.main] ++ s.side :: []) done := h.carried
    refine ⟨hcarried.add f rfl rfl, ?_, h.main, h.videos⟩
    rw [List.flatMap_append, h.chips]
    rfl
  · rw [if_neg hside]
    have hcarried : Carried ([] ++ s.main :: [s.side]) done := h.carried
    exact ⟨hcarried.add f rfl rfl, h.chips, h.main,
      fun _ => List.append_ne_nil_of_right_ne_nil _ (List.cons_ne_nil _ _)⟩

theorem sound_films (files : List File) :
    (files.foldl (filmStep names) ⟨newGroup "game" "grp_main", newGroup "subs" "grp_subs", 0⟩).Sound files := by
  induction files using List.reverseRecOn with
  | nil => exact ⟨⟨[[], []], .cons ⟨rfl, rfl⟩ (.cons ⟨rfl, rfl⟩ .nil), .nil⟩, rfl, rfl, fun h => absurd h (Nat.lt_irrefl 0)⟩
  | append_singleton files f ih =>
      rw [List.foldl_append]
      exact sound_filmStep ih f

theorem partition_films (hdistinct : (files.map File.index).Nodup) :
    filmExtras names files = [] ∨ Partition files (filmExtras names files) := by
  unfold filmExtras
  dsimp only
  have hsound : Film.Sound _ files := @sound_films names files
  split_ifs with hno
  · exact .inl rfl
  · refine .inr (partition_of_carried hdistinct hsound.carried (fun g hg => ?_) fun g hg => ?_)
    · rcases List.mem_cons.mp hg with rfl | hg
      · exact chipped_nil hsound.main
      · rw [List.mem_singleton.mp hg, Chipped, hsound.chips]
    · rcases List.mem_cons.mp hg with rfl | hg
      · exact hsound.videos (by omega)
      · rw [List.mem_singleton.mp hg]
        intro hnil
        rw [hnil, List.length_nil] at hno
        omega

end Films

section Group

variable (names : Names)

-- Whichever pass knows the files, its groups hold each of them once.
theorem group_partition (files : List File) (hdistinct : (files.map File.index).Nodup) (torrentName : Text) :
    group names files torrentName = [] ∨ Partition files (group names files torrentName) := by
  unfold group
  dsimp only
  split_ifs
  · exact .inl rfl
  · exact partition_groups hdistinct (sound_fold (fun h f => sound_fitgirlStep h f) files)
  · exact partition_groups hdistinct (sound_fold (fun h f => sound_dodiStep h f) files)
  · exact partition_seasons hdistinct
  · exact partition_films hdistinct

def latin : Names := ⟨fun t => t.map Char.toLower, fun t => t.map Char.toUpper, fun _ => ⟨-1, -1⟩⟩

def film : List File :=
  [⟨0, ['a', '.', 'm', 'k', 'v'], 7⟩, ⟨1, ['a', '.', 'e', 'n', '.', 's', 'r', 't'], 2⟩, ⟨2, ['a', '.', 'f', 'r', '.', 's', 'r', 't'], 3⟩]

theorem group_partition_film : (group latin film []).length = 2 ∧ Partition film (group latin film []) := by
  have hlength : (group latin film []).length = 2 := by decide +kernel
  refine ⟨hlength, (group_partition latin film (by decide) []).resolve_left fun hnone => ?_⟩
  rw [hnone] at hlength
  exact absurd hlength (by decide)

end Group

end BATorrent.FileGroups
