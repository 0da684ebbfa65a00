/-
Computations that carry over from one state to a related one. The relation may
depend on a log that the first state keeps of what it is asked for: `W` says of
a state that its log lies within a given one. As logs only grow, it passes from
the state after a computation to the one before it.
-/
import LightningJolt.Fallible

namespace LightningJolt.Fallible

/-- What `x` does at a state whose log ends up within bounds, it does at a related state. -/
structure Carries {σ α : Type} (W : σ → Prop) (Sim : σ → σ → Prop) (x : StateT σ Option α) : Prop where
  within : ∀ {s a s'}, x s = .some (a, s') → W s' → W s
  run : ∀ {s a s' r}, x s = .some (a, s') → W s' → Sim s r → ∃ r', x r = .some (a, r') ∧ Sim s' r'

namespace Carries

variable {σ α β ι : Type} {W : σ → Prop} {Sim : σ → σ → Prop} {x y : StateT σ Option α}

theorem pure (a : α) : Carries W Sim (pure a) where
  within h hW := by
    cases h
    exact hW
  run h _ hsim := by
    cases h
    exact ⟨_, rfl, hsim⟩

theorem failure : Carries W Sim (failure : StateT σ Option α) where
  within h := by cases h
  run h := by cases h

theorem lift (x : Option α) : Carries W Sim (StateT.lift x) where
  within h hW := by
    obtain ⟨b, -, hb⟩ := Option.bind_eq_some_iff.mp h
    cases hb
    exact hW
  run {_ _ _ r} h _ hsim := by
    obtain ⟨b, hx, hb⟩ := Option.bind_eq_some_iff.mp h
    cases hb
    exact ⟨r, by rw [lift_apply, hx]; rfl, hsim⟩

theorem bind {f : α → StateT σ Option β} (hx : Carries W Sim x) (hf : ∀ a, Carries W Sim (f a)) :
    Carries W Sim (x >>= f) where
  within h hW := by
    obtain ⟨⟨a, s1⟩, h1, h2⟩ := Option.bind_eq_some_iff.mp h
    exact hx.within h1 ((hf a).within h2 hW)
  run h hW hsim := by
    obtain ⟨⟨a, s1⟩, h1, h2⟩ := Option.bind_eq_some_iff.mp h
    obtain ⟨r1, hr1, hsim1⟩ := hx.run h1 ((hf a).within h2 hW) hsim
    obtain ⟨r2, hr2, hsim2⟩ := (hf a).run h2 hW hsim1
    exact ⟨r2, by rw [bind_apply, hr1]; exact hr2, hsim2⟩

/-- A computation that goes by a part of the state which related states share. -/
theorem get_bind {f : σ → StateT σ Option α} (hblind : ∀ {s r}, Sim s r → f r = f s)
    (hf : ∀ s, Carries W Sim (f s)) : Carries W Sim (get >>= f) where
  within {s _ _} h hW := (hf s).within h hW
  run {s _ _ r} h hW hsim := by
    obtain ⟨r', hr, hsim'⟩ := (hf s).run h hW hsim
    rw [← hblind hsim] at hr
    exact ⟨r', hr, hsim'⟩

theorem ite {p : Prop} [Decidable p] (hx : Carries W Sim x) (hy : Carries W Sim y) :
    Carries W Sim (if p then x else y) := by
  split_ifs
  · exact hx
  · exact hy

theorem check (p : Prop) [Decidable p] : Carries W Sim (guard p) := by
  unfold guard
  exact .ite (.pure _) .failure

theorem mapM {f : ι → StateT σ Option β} (hf : ∀ i, Carries W Sim (f i)) (l : List ι) :
    Carries W Sim (l.mapM f) := by
  induction l with
  | nil =>
    rw [List.mapM_nil]
    exact .pure _
  | cons i l ih =>
    rw [List.mapM_cons]
    exact (hf i).bind fun _ => ih.bind fun _ => .pure _

theorem forM {f : ι → StateT σ Option PUnit} (hf : ∀ i, Carries W Sim (f i)) (l : List ι) :
    Carries W Sim (l.forM f) := by
  induction l with
  | nil => exact .pure _
  | cons i l ih => exact (hf i).bind fun _ => ih

end Carries

end LightningJolt.Fallible
