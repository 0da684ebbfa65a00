/-
Logs of accesses to cells. An access says what it found in its cell and what it
left there; a log is consistent with the cells it starts from if each access
finds what the accesses before it left. In a consistent log a cell holds what
the last access to it left, and is the sum of the changes to it.
-/
import Mathlib.Algebra.BigOperators.Group.List.Basic
import Mathlib.Data.List.DropRight
import Mathlib.Logic.Function.Basic
import Mathlib.Tactic.Abel

namespace LightningJolt

/-- One access: a cell, what was found in it and what was left. -/
structure CellAccess (K V : Type) where
  cell : K
  found : V
  left : V
deriving DecidableEq

namespace CellAccess

variable {K V : Type} [DecidableEq K] {s : K → V} {a : CellAccess K V} {log log' : List (CellAccess K V)}
  {k : K}

/-- An access that leaves what it found. -/
def read (k : K) (v : V) : CellAccess K V := ⟨k, v, v⟩

/-- The cells after an access. -/
def apply (s : K → V) (a : CellAccess K V) : K → V := Function.update s a.cell a.left

/-- The cells after a log. -/
def replay (s : K → V) (log : List (CellAccess K V)) : K → V := log.foldl apply s

/-- Every access finds what the ones before it left. -/
def Consistent (s : K → V) : List (CellAccess K V) → Prop
  | [] => True
  | a :: log => a.found = s a.cell ∧ Consistent (apply s a) log

@[simp] theorem replay_nil : replay s [] = s := rfl

@[simp] theorem replay_cons : replay s (a :: log) = replay (apply s a) log := rfl

@[simp] theorem consistent_nil : Consistent s [] := trivial

@[simp] theorem consistent_cons :
    Consistent s (a :: log) ↔ a.found = s a.cell ∧ Consistent (apply s a) log := Iff.rfl

@[simp] theorem apply_read : apply s (read k (s k)) = s := Function.update_eq_self k s

/-- Reads of what the cells hold are consistent and leave them. -/
theorem consistent_reads (h : ∀ a ∈ log, a = read a.cell (s a.cell)) : Consistent s log ∧ replay s log = s := by
  induction log with
  | nil => simp
  | cons a log ih =>
    obtain ⟨ha, hlog⟩ := List.forall_mem_cons.mp h
    rw [consistent_cons, replay_cons, ha, apply_read]
    exact ⟨⟨rfl, (ih hlog).1⟩, (ih hlog).2⟩

/-- In a consistent log of reads, each finds what the cells hold. -/
theorem Consistent.of_reads (h : Consistent s log) (hread : ∀ a ∈ log, a.left = a.found) :
    (∀ a ∈ log, a.found = s a.cell) ∧ replay s log = s := by
  induction log with
  | nil => simp
  | cons a log ih =>
    obtain ⟨ha, hlog⟩ := h
    obtain ⟨hleft, hrest⟩ := List.forall_mem_cons.mp hread
    have hsame : apply s a = s := by rw [apply, hleft, ha, Function.update_eq_self]
    rw [hsame] at hlog
    rw [List.forall_mem_cons, replay_cons, hsame]
    exact ⟨⟨ha, (ih hlog hrest).1⟩, (ih hlog hrest).2⟩

theorem replay_append : replay s (log ++ log') = replay (replay s log) log' := List.foldl_append

theorem consistent_append :
    Consistent s (log ++ log') ↔ Consistent s log ∧ Consistent (replay s log) log' := by
  induction log generalizing s with
  | nil => simp
  | cons a log ih => simp [ih, and_assoc]

/-- A cell after a log, by whether the last access is to it. -/
theorem replay_concat : replay s (log ++ [a]) k = if k = a.cell then a.left else replay s log k := by
  rw [replay_append, replay_cons, replay_nil, apply, Function.update_apply]

/-- **A cell is the sum of its changes**: what it held at first, and for each
access to it what the access left less what it found. -/
theorem Consistent.replay_eq_sum {G : Type} [AddCommGroup G] (val : V → G) (h : Consistent s log) (k : K) :
    val (replay s log k) =
      val (s k) + (log.map fun a => if a.cell = k then val a.left - val a.found else 0).sum := by
  induction log using List.reverseRecOn with
  | nil => simp
  | append_singleton log a ih =>
    obtain ⟨hlog, ha, -⟩ := consistent_append.mp h
    have hsum := ih hlog
    rw [replay_concat, List.map_append, List.sum_append, ← add_assoc, ← hsum]
    by_cases hk : k = a.cell
    · subst hk
      simp [ha]
    · simp [hk, Ne.symm hk]

end CellAccess

end LightningJolt
