import Mathlib.Data.List.AList
import Mathlib.Data.List.Nodup

namespace Lib.FoldKeys

variable {α S β γ : Type*} [DecidableEq α]

-- A loop over a map, each turn of which changes what is held under its own key only, changes what is held under
-- each key once.
theorem look_foldl (look : S → α → β) (turn : S → (Σ _ : α, γ) → S) (f : α → β → γ → β)
    (hself : ∀ s e, look (turn s e) e.1 = f e.1 (look s e.1) e.2)
    (hother : ∀ s e a, a ≠ e.1 → look (turn s e) a = look s a)
    {es : List (Σ _ : α, γ)} (hes : es.NodupKeys) (s : S) (a : α) :
    look (es.foldl turn s) a = (es.dlookup a).elim (look s a) (f a (look s a)) := by
  induction es generalizing s with
  | nil => rfl
  | cons e es ih =>
      obtain ⟨he, hrest⟩ := List.nodupKeys_cons.mp hes
      rw [List.foldl_cons, ih hrest]
      obtain ⟨b, c⟩ := e
      by_cases ha : a = b
      · subst ha
        rw [List.dlookup_eq_none.mpr he, List.dlookup_cons_eq]
        exact hself s ⟨a, c⟩
      · rw [List.dlookup_cons_ne es (⟨b, c⟩ : Σ _ : α, γ) ha, hother s ⟨b, c⟩ a ha]

end Lib.FoldKeys

namespace Lib.KeepFirst

variable {α κ : Type} [DecidableEq κ] (key : α → κ)

-- Of the values with one key the first, and none whose key was seen before.
def keepFirst : List κ → List α → List α
  | _, [] => []
  | seen, x :: xs => if key x ∈ seen then keepFirst seen xs else x :: keepFirst (key x :: seen) xs

theorem keepFirst_sublist (seen : List κ) (xs : List α) : (keepFirst key seen xs).Sublist xs := by
  induction xs generalizing seen with
  | nil => exact List.Sublist.slnil
  | cons x xs ih =>
      rw [keepFirst]
      split
      · exact (ih seen).cons x
      · exact (ih (key x :: seen)).cons_cons x

theorem mem_keys {seen : List κ} {xs : List α} {k : κ} :
    k ∈ (keepFirst key seen xs).map key ↔ k ∈ xs.map key ∧ k ∉ seen := by
  induction xs generalizing seen with
  | nil => simp [keepFirst]
  | cons x xs ih =>
      rw [keepFirst]
      by_cases hx : key x ∈ seen
      · rw [if_pos hx, ih, List.map_cons, List.mem_cons]
        constructor
        · exact fun h => ⟨.inr h.1, h.2⟩
        · rintro ⟨rfl | h, hk⟩
          · exact absurd hx hk
          · exact ⟨h, hk⟩
      · rw [if_neg hx, List.map_cons, List.mem_cons, ih, List.map_cons, List.mem_cons, List.mem_cons, not_or]
        by_cases hk : k = key x
        · subst hk
          exact ⟨fun _ => ⟨.inl rfl, hx⟩, fun _ => .inl rfl⟩
        · simp [hk]

theorem nodup_keys (seen : List κ) (xs : List α) : ((keepFirst key seen xs).map key).Nodup := by
  induction xs generalizing seen with
  | nil => exact List.nodup_nil
  | cons x xs ih =>
      rw [keepFirst]
      split
      · exact ih seen
      · rw [List.map_cons, List.nodup_cons]
        refine ⟨fun h => ?_, ih (key x :: seen)⟩
        exact ((mem_keys key).mp h).2 List.mem_cons_self

theorem keepFirst_congr {seen seen' : List κ} (h : ∀ k, k ∈ seen ↔ k ∈ seen') (xs : List α) :
    keepFirst key seen xs = keepFirst key seen' xs := by
  induction xs generalizing seen seen' with
  | nil => rfl
  | cons x xs ih =>
      rw [keepFirst, keepFirst]
      by_cases hx : key x ∈ seen
      · rw [if_pos hx, if_pos ((h _).mp hx), ih h]
      · have hnext : ∀ k, k ∈ key x :: seen ↔ k ∈ key x :: seen' := fun k => by
          rw [List.mem_cons, List.mem_cons, h]
        rw [if_neg hx, if_neg (fun hx' => hx ((h _).mpr hx')), ih hnext]

-- What comes later is kept where neither the seen keys nor the keys kept so far have its key.
theorem keepFirst_append (seen : List κ) (xs ys : List α) :
    keepFirst key seen (xs ++ ys) =
      keepFirst key seen xs ++ keepFirst key ((keepFirst key seen xs).map key ++ seen) ys := by
  induction xs generalizing seen with
  | nil => rfl
  | cons x xs ih =>
      rw [List.cons_append, keepFirst, keepFirst]
      by_cases hx : key x ∈ seen
      · rw [if_pos hx, if_pos hx, ih]
      · rw [if_neg hx, if_neg hx, ih, List.cons_append]
        congr 2
        apply keepFirst_congr
        intro k
        simp only [List.mem_append, List.mem_cons, List.map_cons]
        tauto

end Lib.KeepFirst
