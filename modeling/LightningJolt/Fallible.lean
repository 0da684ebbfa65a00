/-
Computations on a state that can fail: how each combinator acts on a state,
and what a computation comes to on states up to an equivalence, the rest of a
state (a log, a cache) being invisible to it.
-/
import Mathlib

namespace LightningJolt.Fallible

section Apply

variable {σ α β : Type} (s : σ)

/-! What a computation does at a state, in the terms of `Option`. -/

theorem bind_apply (x : StateT σ Option α) (f : α → StateT σ Option β) :
    (x >>= f) s = x s >>= fun p => f p.1 p.2 := rfl

theorem pure_apply (a : α) : (pure a : StateT σ Option α) s = .some (a, s) := rfl

theorem get_apply : (get : StateT σ Option σ) s = .some (s, s) := rfl

theorem modify_apply (f : σ → σ) : (modify f : StateT σ Option PUnit) s = .some (⟨⟩, f s) := rfl

theorem lift_apply (x : Option α) :
    (StateT.lift x : StateT σ Option α) s = x >>= fun a => .some (a, s) := rfl

end Apply

/-! ## Action up to an equivalence -/

/-- `x` acts as `upd`: it succeeds where `ok` holds, with the value `val`, and
leaves a state equivalent to what `upd` makes of the one it found. -/
structure Acts {σ α : Type} [Setoid σ] (x : StateT σ Option α) (ok : σ → Prop) (val : σ → α)
    (upd : σ → σ) : Prop where
  run : ∀ s, ok s → ∃ s', x s = .some (val s, s') ∧ upd s ≈ s'
  fail : ∀ s, ¬ ok s → x s = .none
  ok_congr : ∀ s s', s ≈ s' → (ok s ↔ ok s')
  val_congr : ∀ s s', s ≈ s' → ok s → val s = val s'
  upd_congr : ∀ s s', s ≈ s' → ok s → upd s ≈ upd s'

/-- `x` reads: the state it leaves is equivalent to the one it found. -/
abbrev Reads {σ α : Type} [Setoid σ] (x : StateT σ Option α) (ok : σ → Prop) (val : σ → α) : Prop :=
  Acts x ok val id

namespace Acts

variable {σ α β ι : Type} [Setoid σ] {x : StateT σ Option α} {ok ok' : σ → Prop} {val val' : σ → α}
  {upd upd' : σ → σ}

/-- What a successful computation returned, and where it left the state. -/
theorem some (h : Acts x ok val upd) {s s' : σ} {a : α} (hx : x s = .some (a, s')) :
    ok s ∧ a = val s ∧ upd s ≈ s' := by
  by_cases hok : ok s
  · obtain ⟨s1, hrun, hsame⟩ := h.run s hok
    rw [hx] at hrun
    cases hrun
    exact ⟨hok, rfl, hsame⟩
  · rw [h.fail s hok] at hx
    cases hx

theorem congr (h : Acts x ok val upd) (hok : ∀ s, ok s ↔ ok' s) (hval : ∀ s, ok s → val s = val' s)
    (hupd : ∀ s, ok s → upd s ≈ upd' s) : Acts x ok' val' upd' where
  run s hs := by
    have hs' := (hok s).mpr hs
    obtain ⟨s', hrun, hsame⟩ := h.run s hs'
    rw [hval s hs'] at hrun
    exact ⟨s', hrun, Setoid.trans (Setoid.symm (hupd s hs')) hsame⟩
  fail s hs := h.fail s fun h => hs ((hok s).mp h)
  ok_congr s s' hss := by rw [← hok, ← hok, h.ok_congr s s' hss]
  val_congr s s' hss hs := by
    rw [← hok] at hs
    have hs' := (h.ok_congr s s' hss).mp hs
    rw [← hval s hs, ← hval s' hs', h.val_congr s s' hss hs]
  upd_congr s s' hss hs := by
    rw [← hok] at hs
    have hs' := (h.ok_congr s s' hss).mp hs
    exact Setoid.trans (Setoid.symm (hupd s hs)) (Setoid.trans (h.upd_congr s s' hss hs) (hupd s' hs'))

theorem pure (a : α) : Reads (pure a : StateT σ Option α) (fun _ => True) fun _ => a where
  run s _ := ⟨s, rfl, Setoid.refl s⟩
  fail _ h := absurd trivial h
  ok_congr _ _ _ := Iff.rfl
  val_congr _ _ _ _ := rfl
  upd_congr _ _ hss _ := hss

theorem failure : Acts (failure : StateT σ Option α) (fun _ => False) val upd where
  run _ h := h.elim
  fail _ _ := rfl
  ok_congr _ _ _ := Iff.rfl
  val_congr _ _ _ h := h.elim
  upd_congr _ _ _ h := h.elim

theorem bind {f : α → StateT σ Option β} {ok2 : α → σ → Prop} {val2 : α → σ → β} {upd2 : α → σ → σ}
    (h : Acts x ok val upd) (hf : ∀ a, Acts (f a) (ok2 a) (val2 a) (upd2 a)) :
    Acts (x >>= f) (fun s => ok s ∧ ok2 (val s) (upd s)) (fun s => val2 (val s) (upd s))
      fun s => upd2 (val s) (upd s) where
  run s hs := by
    obtain ⟨s1, hx, hsame⟩ := h.run s hs.1
    have hok2 := ((hf (val s)).ok_congr _ s1 hsame).mp hs.2
    obtain ⟨s2, hfx, hsame2⟩ := (hf (val s)).run s1 hok2
    refine ⟨s2, ?_, Setoid.trans ((hf (val s)).upd_congr _ s1 hsame hs.2) hsame2⟩
    rw [bind_apply, hx, (hf (val s)).val_congr _ s1 hsame hs.2]
    exact hfx
  fail s hs := by
    rw [bind_apply]
    by_cases hok : ok s
    · obtain ⟨s1, hx, hsame⟩ := h.run s hok
      rw [hx]
      exact (hf (val s)).fail s1 fun h2 => hs ⟨hok, ((hf (val s)).ok_congr _ s1 hsame).mpr h2⟩
    · rw [h.fail s hok]
      rfl
  ok_congr s s' hss := by
    constructor
    · intro hs
      refine ⟨(h.ok_congr s s' hss).mp hs.1, ?_⟩
      rw [← h.val_congr s s' hss hs.1]
      exact ((hf (val s)).ok_congr _ _ (h.upd_congr s s' hss hs.1)).mp hs.2
    · intro hs
      have hok := (h.ok_congr s s' hss).mpr hs.1
      refine ⟨hok, ?_⟩
      rw [h.val_congr s s' hss hok]
      exact ((hf (val s')).ok_congr _ _ (h.upd_congr s s' hss hok)).mpr hs.2
  val_congr s s' hss hs := by
    rw [← h.val_congr s s' hss hs.1]
    exact (hf (val s)).val_congr _ _ (h.upd_congr s s' hss hs.1) hs.2
  upd_congr s s' hss hs := by
    rw [← h.val_congr s s' hss hs.1]
    exact (hf (val s)).upd_congr _ _ (h.upd_congr s s' hss hs.1) hs.2

/-- The step after a check. -/
theorem guard_bind (p : Prop) [Decidable p] {f : Unit → StateT σ Option α}
    (h : Acts (f ()) ok val upd) : Acts (guard p >>= f) (fun s => p ∧ ok s) val upd := by
  by_cases hp : p
  · have heq : (guard p >>= f : StateT σ Option α) = f () := by
      rw [guard, if_pos hp]
      rfl
    rw [heq]
    exact h.congr (fun s => by simp [hp]) (fun _ _ => rfl) fun s _ => Setoid.refl _
  · have hfail : Acts (Alternative.failure : StateT σ Option α) (fun _ => False) val upd := failure
    have heq : (guard p >>= f : StateT σ Option α) = Alternative.failure := by
      rw [guard, if_neg hp]
      rfl
    rw [heq]
    exact hfail.congr (fun s => by simp [hp]) (fun _ h => h.elim) fun _ h => h.elim

theorem mapM {f : ι → StateT σ Option β} {okf : ι → σ → Prop} {valf : ι → σ → β}
    (hf : ∀ i, Reads (f i) (okf i) (valf i)) (l : List ι) :
    Reads (l.mapM f) (fun s => ∀ i ∈ l, okf i s) fun s => l.map fun i => valf i s := by
  induction l with
  | nil =>
    rw [List.mapM_nil]
    exact (pure []).congr (fun s => by simp) (fun _ _ => rfl) fun s _ => Setoid.refl _
  | cons i l ih =>
    rw [List.mapM_cons]
    refine ((hf i).bind fun a => ih.bind fun as => pure (a :: as)).congr (fun s => ?_)
      (fun _ _ => rfl) fun s _ => Setoid.refl _
    simp

/-- A loop whose steps do not change whether other steps succeed. -/
theorem forM {f : ι → StateT σ Option PUnit} {okf : ι → σ → Prop} {updf : ι → σ → σ}
    (hf : ∀ i, Acts (f i) (okf i) (fun _ => ⟨⟩) (updf i))
    (hstable : ∀ i j s, okf i s → (okf j (updf i s) ↔ okf j s)) (l : List ι) :
    Acts (l.forM f) (fun s => ∀ i ∈ l, okf i s) (fun _ => ⟨⟩) fun s =>
      l.foldl (fun s i => updf i s) s := by
  induction l with
  | nil =>
    have hnil : ([] : List ι).forM f = Pure.pure ⟨⟩ := rfl
    rw [hnil]
    exact (pure _).congr (fun s => by simp) (fun _ _ => rfl) fun s _ => Setoid.refl _
  | cons i l ih =>
    have hcons : (i :: l).forM f = f i >>= fun _ => l.forM f := rfl
    rw [hcons]
    refine ((hf i).bind fun _ => ih).congr (fun s => ?_) (fun _ _ => rfl) fun s _ => Setoid.refl _
    rw [List.forall_mem_cons]
    constructor
    · intro ⟨hi, hl⟩
      exact ⟨hi, fun j hj => (hstable i j s hi).mp (hl j hj)⟩
    · intro ⟨hi, hl⟩
      exact ⟨hi, fun j hj => (hstable i j s hi).mpr (hl j hj)⟩

end Acts

end LightningJolt.Fallible
