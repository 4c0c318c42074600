import Mathlib.Tactic.Linarith
import Subscript.Hir.Run
import Subscript.Hir.TrapSites

/-! The intervals of `trap_sites.rs` against the integers of a run, and how the ranges of the counters and
the rewritten expressions depend on each other. -/

namespace Subscript.Hir

namespace Interval

/-- the interval holds the integer -/
def Holds (range : Interval) (n : Int) : Prop := range.lo ≤ n ∧ n ≤ range.hi

variable {a b c : Interval} {x y : Int}

theorem holds_point (n : Int) : (point n).Holds n := ⟨le_refl n, le_refl n⟩

theorem fit_eq_some {lo hi : Int} (h : fit lo hi = some c) : c = ⟨lo, hi⟩ := by
  rw [fit] at h
  split at h
  · exact (Option.some.inj h).symm
  · cases h

theorem holds_add (h : a.add b = some c) (hx : a.Holds x) (hy : b.Holds y) : c.Holds (x + y) := by
  rw [fit_eq_some h]
  exact ⟨Int.add_le_add hx.1 hy.1, Int.add_le_add hx.2 hy.2⟩

theorem holds_sub (h : a.sub b = some c) (hx : a.Holds x) (hy : b.Holds y) : c.Holds (x - y) := by
  rw [fit_eq_some h]
  exact ⟨Int.sub_le_sub hx.1 hy.2, Int.sub_le_sub hx.2 hy.1⟩

/-- a product lies between the products with the ends of one factor -/
theorem mul_between {l h : Int} (hl : l ≤ x) (hh : x ≤ h) (y : Int) :
    min (l * y) (h * y) ≤ x * y ∧ x * y ≤ max (l * y) (h * y) := by
  rcases le_total 0 y with hy | hy
  · have hlow := mul_le_mul_of_nonneg_right hl hy
    have hhigh := mul_le_mul_of_nonneg_right hh hy
    omega
  · have hlow := mul_le_mul_of_nonpos_right hl hy
    have hhigh := mul_le_mul_of_nonpos_right hh hy
    omega

theorem holds_mul (h : a.mul b = some c) (hx : a.Holds x) (hy : b.Holds y) : c.Holds (x * y) := by
  rw [fit_eq_some h]
  have hxy := mul_between hx.1 hx.2 y
  have hlo := mul_between hy.1 hy.2 a.lo
  have hhi := mul_between hy.1 hy.2 a.hi
  simp only [Int.mul_comm _ a.lo, Int.mul_comm _ a.hi] at hlo hhi
  simp only [Holds]
  omega

end Interval

/-- the value lies in the interval, if there is one -/
def Bounded (v : Val) (range : Option Interval) : Prop :=
  ∀ r, range = some r → ∃ n, v = .int n ∧ r.Holds n

theorem wrap_eq_self {ty : Ty} {target : Interval} {n : Int} (h : intTypeRange ty = some target)
    (hn : target.Holds n) : ty.wrap n = n := by
  obtain ⟨hlo, hhi⟩ := hn
  rw [intTypeRange] at h
  cases hb : ty.intBounds with
  | none =>
    rw [hb] at h
    cases h
  | some bounds =>
    obtain ⟨lo, hi⟩ := bounds
    have hle : lo ≤ i64Max := by
      cases ty <;> simp only [Ty.intBounds, reduceCtorEq, Option.some.injEq, Prod.mk.injEq] at hb <;>
        · obtain ⟨rfl, rfl⟩ := hb
          decide
    simp only [hb] at h
    split at h
    · obtain rfl := Option.some.inj h
      simp only at hlo hhi
      simp only [Ty.wrap, hb]
      rw [Int.emod_eq_of_lt] <;> omega
    · cases h

/-- the facts of `ranges` are facts of `more` -/
def Ranges.Le (ranges more : Ranges) : Prop := ∀ name range, ranges name = some range → more name = some range

namespace Ranges

variable {ranges more : Ranges} {name : String} {range : Interval}

theorem Le.refl (ranges : Ranges) : ranges.Le ranges := fun _ _ h => h

theorem Le.trans {most : Ranges} (h : ranges.Le more) (h' : more.Le most) : ranges.Le most :=
  fun name range hr => h' name range (h name range hr)

theorem remove_le (ranges : Ranges) (name : String) : (ranges.remove name).Le ranges := by
  intro n r h
  rw [remove] at h
  split at h
  · cases h
  · exact h

theorem remove_self (ranges : Ranges) (name : String) : ranges.remove name name = none := by simp [remove]

theorem insert_of_ne {n : String} (h : n ≠ name) : ranges.insert name range n = ranges n := by simp [insert, h]

theorem le_insert (h : ranges name = none) (range : Interval) : ranges.Le (ranges.insert name range) := by
  intro n r hn
  have hne : n ≠ name := by
    rintro rfl
    rw [h] at hn
    cases hn
  rw [insert_of_ne hne, hn]

end Ranges

/-- the rules by which `intervalOf` finds an interval -/
inductive Ranged (ranges : Ranges) : Expr → Interval → Prop where
  | int {value : Int} {ty : Ty} {pos : Pos} {args : List Expr} {body : List Stmt} (hty : ty.isInteger = true) :
    Ranged ranges (.mk (.int value) ty pos args body) (.point value)
  | enumMember {value : Int} {ty : Ty} {pos : Pos} {args : List Expr} {body : List Stmt}
    (hty : ty.isInteger = true) : Ranged ranges (.mk (.enumMember value) ty pos args body) (.point value)
  | localVar {name : String} {ty : Ty} {pos : Pos} {args : List Expr} {body : List Stmt} {r : Interval}
    (hty : ty.isInteger = true) (hr : ranges name = some r) :
    Ranged ranges (.mk (.localVar name) ty pos args body) r
  | length {obj : Expr} {element ty : Ty} {len : Nat} {pos : Pos} {body : List Stmt}
    (hty : ty.isInteger = true) (hobj : obj.ty = .fixedArray element len) :
    Ranged ranges (.mk .length ty pos [obj] body) (.point len)
  | add {left right : Expr} {ty : Ty} {pos : Pos} {body : List Stmt} {l r c : Interval}
    (hty : ty.isInteger = true) (hl : Ranged ranges left l) (hr : Ranged ranges right r) (hc : l.add r = some c) :
    Ranged ranges (.mk (.binary .add) ty pos [left, right] body) c
  | sub {left right : Expr} {ty : Ty} {pos : Pos} {body : List Stmt} {l r c : Interval}
    (hty : ty.isInteger = true) (hl : Ranged ranges left l) (hr : Ranged ranges right r) (hc : l.sub r = some c) :
    Ranged ranges (.mk (.binary .sub) ty pos [left, right] body) c
  | mul {left right : Expr} {ty : Ty} {pos : Pos} {body : List Stmt} {l r c : Interval}
    (hty : ty.isInteger = true) (hl : Ranged ranges left l) (hr : Ranged ranges right r) (hc : l.mul r = some c) :
    Ranged ranges (.mk (.binary .mul) ty pos [left, right] body) c
  | cast {inner : Expr} {ty : Ty} {pos : Pos} {body : List Stmt} {r target : Interval}
    (hty : ty.isInteger = true) (hinner : inner.ty.isInteger = true) (hr : Ranged ranges inner r)
    (htarget : intTypeRange ty = some target) (hlo : target.lo ≤ r.lo) (hhi : r.hi ≤ target.hi) :
    Ranged ranges (.mk .cast ty pos [inner] body) r

theorem ranged_of_intervalOf {ranges : Ranges} : ∀ {e : Expr} {r : Interval}, intervalOf ranges e = some r →
    Ranged ranges e r
  | .mk op ty pos args body, r, h => by
    unfold intervalOf at h
    split at h
    · next hty =>
      split at h
      · obtain rfl := Option.some.inj h
        exact .int hty
      · obtain rfl := Option.some.inj h
        exact .enumMember hty
      · exact .localVar hty h
      · split at h
        · next hobj =>
          obtain rfl := Option.some.inj h
          exact .length hty hobj
        · cases h
      · split at h
        · next hl hr =>
          split at h
          · exact .add hty (ranged_of_intervalOf hl) (ranged_of_intervalOf hr) h
          · exact .sub hty (ranged_of_intervalOf hl) (ranged_of_intervalOf hr) h
          · exact .mul hty (ranged_of_intervalOf hl) (ranged_of_intervalOf hr) h
          · cases h
        · cases h
      · split at h
        · next hinner =>
          split at h
          · next hr htarget =>
            split at h
            · next hsub =>
              obtain rfl := Option.some.inj h
              exact .cast hty hinner (ranged_of_intervalOf hr) htarget hsub.1 hsub.2
            · cases h
          · cases h
        · cases h
      · cases h
    · cases h

theorem intervalOf_of_ranged {ranges : Ranges} {e : Expr} {r : Interval} (h : Ranged ranges e r) :
    intervalOf ranges e = some r := by
  induction h with
  | int hty => simp [intervalOf, hty]
  | enumMember hty => simp [intervalOf, hty]
  | localVar hty hr => simp [intervalOf, hty, hr]
  | length hty hobj => simp [intervalOf, hty, hobj]
  | add hty _ _ hc ihl ihr => simp [intervalOf, hty, ihl, ihr, hc]
  | sub hty _ _ hc ihl ihr => simp [intervalOf, hty, ihl, ihr, hc]
  | mul hty _ _ hc ihl ihr => simp [intervalOf, hty, ihl, ihr, hc]
  | cast hty hinner _ htarget hlo hhi ih => simp [intervalOf, hty, hinner, ih, htarget, hlo, hhi]

theorem Ranged.mono {ranges more : Ranges} {e : Expr} {r : Interval} (h : Ranged ranges e r)
    (hle : ranges.Le more) : Ranged more e r := by
  induction h with
  | int hty => exact .int hty
  | enumMember hty => exact .enumMember hty
  | localVar hty hr => exact .localVar hty (hle _ _ hr)
  | length hty hobj => exact .length hty hobj
  | add hty _ _ hc ihl ihr => exact .add hty ihl ihr hc
  | sub hty _ _ hc ihl ihr => exact .sub hty ihl ihr hc
  | mul hty _ _ hc ihl ihr => exact .mul hty ihl ihr hc
  | cast hty hinner _ htarget hlo hhi ih => exact .cast hty hinner ih htarget hlo hhi

end Subscript.Hir
