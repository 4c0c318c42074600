import Mathlib.Data.List.Basic

/-! Reading texts back: a text that is put together from parts with separators determines the parts, when
the separators do not occur in them. -/

namespace Text

open List

variable {α : Type*} {a a' r r' s s' : List α} {x : α}

/-- a prefix of characters of one kind ends where the next character is of another kind -/
theorem split_span {p : α → Prop} (ha : ∀ c ∈ a, p c) (ha' : ∀ c ∈ a', p c)
    (hr : ∀ c ∈ r.head?, ¬ p c) (hr' : ∀ c ∈ r'.head?, ¬ p c) (h : a ++ r = a' ++ r') :
    a = a' ∧ r = r' := by
  induction a generalizing a' with
  | nil =>
    cases a' with
    | nil => exact ⟨rfl, h⟩
    | cons c a' =>
      have hc : c ∈ r.head? := by simp [show r = c :: (a' ++ r') from h]
      exact absurd (ha' c mem_cons_self) (hr c hc)
  | cons c a ih =>
    cases a' with
    | nil =>
      have hc : c ∈ r'.head? := by simp [show r' = c :: (a ++ r) from h.symm]
      exact absurd (ha c mem_cons_self) (hr' c hc)
    | cons c' a' =>
      obtain ⟨rfl, htail⟩ := cons.inj h
      obtain ⟨rfl, hr⟩ := ih (fun d hd => ha d (mem_cons_of_mem _ hd))
        (fun d hd => ha' d (mem_cons_of_mem _ hd)) htail
      exact ⟨rfl, hr⟩

/-- the first separator -/
theorem split_first (ha : x ∉ a) (ha' : x ∉ a') (h : a ++ x :: s = a' ++ x :: s') : a = a' ∧ s = s' := by
  have hne : ∀ {l : List α}, x ∉ l → ∀ c ∈ l, c ≠ x := fun hl c hc heq => hl (heq ▸ hc)
  obtain ⟨hpre, hrest⟩ := split_span (hne ha) (hne ha') (by simp) (by simp) h
  exact ⟨hpre, (cons.inj hrest).2⟩

/-- the last separator -/
theorem split_last (hs : x ∉ s) (hs' : x ∉ s') (h : a ++ x :: s = a' ++ x :: s') : a = a' ∧ s = s' := by
  have h' := congrArg List.reverse h
  simp only [reverse_append, reverse_cons, append_assoc, singleton_append] at h'
  obtain ⟨hs, ha⟩ := split_first (by simpa using hs) (by simpa using hs') h'
  exact ⟨reverse_injective ha, reverse_injective hs⟩

/-- a list of texts, none of them empty and none with the separator in it -/
theorem intercalate_inj [DecidableEq α] {ls ls' : List (List α)} (h : ∀ l ∈ ls, l ≠ [] ∧ x ∉ l)
    (h' : ∀ l ∈ ls', l ≠ [] ∧ x ∉ l) (heq : [x].intercalate ls = [x].intercalate ls') : ls = ls' := by
  have hnil : ∀ {ms : List (List α)}, (∀ l ∈ ms, l ≠ [] ∧ x ∉ l) → [x].intercalate ms = [] → ms = [] := by
    intro ms hms hm
    cases ms with
    | nil => rfl
    | cons m ms =>
      have hm₀ : m = [] := by
        cases ms with
        | nil => simpa using hm
        | cons _ _ =>
          rw [intercalate_cons_cons] at hm
          exact (append_eq_nil_iff.mp (append_eq_nil_iff.mp hm).1).1
      exact absurd hm₀ (hms m mem_cons_self).1
  by_cases hls : ls = []
  · subst hls
    exact (hnil h' heq.symm).symm
  · have hls' : ls' ≠ [] := fun hl => by
      subst hl
      exact hls (hnil h heq)
    have hsplit := congrArg (List.splitOn x) heq
    rwa [splitOn_intercalate x (fun l hl => (h l hl).2) hls,
      splitOn_intercalate x (fun l hl => (h' l hl).2) hls'] at hsplit

theorem mem_of_mem_intercalate {c : α} {ls : List (List α)} (h : c ∈ [x].intercalate ls) :
    c = x ∨ ∃ l ∈ ls, c ∈ l := by
  induction ls with
  | nil => cases h
  | cons l ls ih =>
    cases ls with
    | nil => exact .inr ⟨l, mem_cons_self, by simpa using h⟩
    | cons l' ls =>
      rcases mem_append.mp h with hl | hrest
      · exact .inr ⟨l, mem_cons_self, hl⟩
      rcases mem_cons.mp hrest with heq | hmem
      · exact .inl heq
      rcases ih hmem with heq | ⟨l₀, hl₀, hc⟩
      · exact .inl heq
      · exact .inr ⟨l₀, mem_cons_of_mem _ hl₀, hc⟩

/-- what every part ends with, the whole ends with -/
theorem getLast?_intercalate {sep : List α} {ls : List (List α)} (hne : ls ≠ [])
    (h : ∀ l ∈ ls, l.getLast? = some x) : (sep.intercalate ls).getLast? = some x := by
  induction ls with
  | nil => exact absurd rfl hne
  | cons l ls ih =>
    obtain ⟨hl, hls⟩ := forall_mem_cons.mp h
    cases ls with
    | nil => simpa using hl
    | cons l' ls => simp [intercalate_cons_cons, getLast?_append, ih (by simp) hls]

/-- groups that each start with their only mark can be told apart -/
theorem flatMap_groups {mark : α → Bool} {xs ys : List (α × List α)}
    (hxs : ∀ b ∈ xs, mark b.1 = true ∧ ∀ c ∈ b.2, mark c = false)
    (hys : ∀ b ∈ ys, mark b.1 = true ∧ ∀ c ∈ b.2, mark c = false)
    (h : (xs.flatMap fun b => b.1 :: b.2) = ys.flatMap fun b => b.1 :: b.2) : xs = ys := by
  induction xs generalizing ys with
  | nil =>
    cases ys with
    | nil => rfl
    | cons y ys => cases h
  | cons x xs ih =>
    cases ys with
    | nil => cases h
    | cons y ys =>
      obtain ⟨hhead, hrest⟩ := cons.inj h
      obtain ⟨hx, hxs⟩ := forall_mem_cons.mp hxs
      obtain ⟨hy, hys⟩ := forall_mem_cons.mp hys
      have hnext : ∀ {zs : List (α × List α)}, (∀ b ∈ zs, mark b.1 = true ∧ ∀ c ∈ b.2, mark c = false) →
          ∀ c ∈ (zs.flatMap fun b => b.1 :: b.2).head?, ¬ mark c = false := by
        intro zs hzs c hc
        cases zs with
        | nil => cases hc
        | cons z zs =>
          obtain rfl : z.1 = c := by simpa using hc
          simp [(hzs z mem_cons_self).1]
      obtain ⟨htail, hrest⟩ := split_span hx.2 hy.2 (hnext hxs) (hnext hys) hrest
      rw [ih hxs hys hrest, Prod.ext hhead htail]

end Text
