/-
Sharing a registry among decompositions: where no two of them are of the same prefix
polynomial a run of all of them is, for each, a run of its own over a registry of its
own; two owners of one polynomial bind it twice in a round.
-/
import LightningJolt.PrefixSuffix

namespace LightningJolt

variable {F : Type} [JoltField F]

/-! ## One decomposition of a run -/

/-- What a step is for one of the decompositions, over a registry of its own. -/
def Event.project (i : Nat) : Event F → Option (Event F)
  | .call j c => if j = i then .some (.call 0 c) else .none
  | .updateCheckpoints => .some .updateCheckpoints

/-- What is returned to one of the decompositions. -/
def outputsOf (i : Nat) (outs : List (Nat × List F)) : List (List F) :=
  outs.filterMap fun o => if o.1 = i then .some o.2 else .none

namespace Sharing

/-- A decomposition by itself is where it is among the others, and so is its prefix. -/
structure View (s own : Sharing F) (i : Nat) (d : Decomposition F) : Prop where
  decomp : s.decomps[i]? = .some d
  alone : own.decomps = [d]
  slot : own.registry d.kind = s.registry d.kind
  rest : ∀ kind, kind ≠ d.kind → (own.registry kind).poly = .none

def kinds (s : Sharing F) : List Prefix := s.decomps.map Decomposition.kind

/-- The polynomials kept are of the decompositions' prefixes. -/
def Owned (s : Sharing F) : Prop := ∀ kind, (s.registry kind).poly ≠ .none → kind ∈ s.kinds

end Sharing

open Sharing

/-- A decomposition stays of its prefix. -/
theorem Decomposition.act_kind {count : Nat → Nat} {slot slot' : Slot F} {d d' : Decomposition F} {c : Call F}
    {out : List F} (h : d.act count slot c = .some (out, slot', d')) : d'.kind = d.kind := by
  cases c with
  | initP =>
    cases h
    rfl
  | initQ uEvals indices lookupBits =>
    obtain ⟨q, -, h⟩ := Option.bind_eq_some_iff.mp h
    cases h
    rfl
  | sumcheckEvals index =>
    simp only [act] at h
    split at h
    · obtain ⟨e, -, h⟩ := Option.bind_eq_some_iff.mp h
      cases h
      rfl
    · obtain ⟨cell, -, h⟩ := Option.bind_eq_some_iff.mp h
      obtain ⟨pc, -, h⟩ := Option.bind_eq_some_iff.mp h
      obtain ⟨e, -, h⟩ := Option.bind_eq_some_iff.mp h
      cases h
      rfl
  | bind r =>
    simp only [act] at h
    split at h
    · cases h
      rfl
    · obtain ⟨cell, -, h⟩ := Option.bind_eq_some_iff.mp h
      cases h
      rfl
  | finalSumcheckClaim =>
    simp only [act] at h
    split at h
    · cases h
      rfl
    · obtain ⟨cell, -, h⟩ := Option.bind_eq_some_iff.mp h
      obtain ⟨claim, -, h⟩ := Option.bind_eq_some_iff.mp h
      cases h
      rfl

omit [JoltField F] in
/-- Of decompositions of different prefixes only one holds references of its prefix. -/
theorem countP_alone {l : List (Decomposition F)} (hkinds : (l.map Decomposition.kind).Nodup) {i : Nat}
    {d : Decomposition F} (hd : l[i]? = .some d) (n : Nat) :
    (l.countP fun d' => decide (d'.kind = d.kind ∧ d'.p = .some n)) =
      [d].countP fun d' => decide (d'.kind = d.kind ∧ d'.p = .some n) := by
  induction l generalizing i with
  | nil => cases hd
  | cons a l ih =>
    rw [List.map_cons, List.nodup_cons] at hkinds
    cases i with
    | zero =>
      rw [List.getElem?_cons_zero] at hd
      cases hd
      have hrest : (l.countP fun d' => decide (d'.kind = d.kind ∧ d'.p = .some n)) = 0 := by
        rw [List.countP_eq_zero]
        intro d' hmem htrue
        exact hkinds.1 (List.mem_map.mpr ⟨d', hmem, (of_decide_eq_true htrue).1⟩)
      rw [List.countP_cons, List.countP_cons, hrest, List.countP_nil]
    | succ i =>
      rw [List.getElem?_cons_succ] at hd
      have hne : ¬ a.kind = d.kind := fun heq =>
        hkinds.1 (List.mem_map.mpr ⟨d, List.mem_of_getElem? hd, heq.symm⟩)
      rw [List.countP_cons, ih hkinds.2 hd]
      simp [hne]

theorem Sharing.step_update_some {s s' : Sharing F} {outs : List (Nat × List F)}
    (hstep : s.step .updateCheckpoints = .some (outs, s')) :
    outs = [] ∧ s'.decomps = s.decomps ∧
      ∀ kind, (s.registry kind).updateCheckpoint = .some (s'.registry kind) := by
  obtain ⟨right, hright, hstep⟩ := Option.bind_eq_some_iff.mp hstep
  obtain ⟨left, hleft, hstep⟩ := Option.bind_eq_some_iff.mp hstep
  obtain ⟨identity, hidentity, hstep⟩ := Option.bind_eq_some_iff.mp hstep
  cases hstep
  refine ⟨rfl, rfl, fun kind => ?_⟩
  cases kind with
  | rightOperand => exact hright
  | leftOperand => exact hleft
  | identity => exact hidentity

theorem Sharing.step_update_of {s : Sharing F} {slots : Prefix → Slot F}
    (h : ∀ kind, (s.registry kind).updateCheckpoint = .some (slots kind)) :
    s.step .updateCheckpoints = .some ([], ⟨slots, s.decomps⟩) := by
  simp only [step, h, Option.bind_eq_bind, Option.bind_some]
  congr 3
  funext kind
  cases kind <;> rfl

namespace Sharing.View

variable {s own : Sharing F} {i : Nat} {d : Decomposition F}

omit [JoltField F] in
/-- The references counted are the same. -/
theorem strongCount (h : View s own i d) (hkinds : s.kinds.Nodup) :
    own.strongCount d.kind = s.strongCount d.kind := by
  funext n
  rw [Sharing.strongCount, Sharing.strongCount, h.slot, h.alone]
  congr 1
  exact (countP_alone hkinds h.decomp n).symm

/-- A call of the decomposition itself. -/
theorem step_own (h : View s own i d) (hkinds : s.kinds.Nodup) (c : Call F) :
    (s.step (.call i c) = .none ∧ own.step (.call 0 c) = .none) ∨
    ∃ out s' own' d', s.step (.call i c) = .some ([(i, out)], s') ∧
      own.step (.call 0 c) = .some ([(0, out)], own') ∧ View s' own' i d' ∧ d'.kind = d.kind := by
  have hshared : s.step (.call i c) = (d.act (s.strongCount d.kind) (s.registry d.kind) c).bind fun r =>
      .some ([(i, r.1)], ⟨Function.update s.registry d.kind r.2.1, s.decomps.set i r.2.2⟩) := by
    rw [Sharing.step, h.decomp, Option.bind_eq_bind, Option.bind_some]
    rfl
  have hown : own.step (.call 0 c) = (d.act (s.strongCount d.kind) (s.registry d.kind) c).bind fun r =>
      .some ([(0, r.1)], ⟨Function.update own.registry d.kind r.2.1, own.decomps.set 0 r.2.2⟩) := by
    rw [Sharing.step, h.alone, List.getElem?_cons_zero, Option.bind_eq_bind, Option.bind_some,
      h.strongCount hkinds, h.slot]
    rfl
  cases hact : d.act (s.strongCount d.kind) (s.registry d.kind) c with
  | none =>
    rw [hact] at hshared hown
    exact .inl ⟨hshared, hown⟩
  | some r =>
    obtain ⟨out, slot, d'⟩ := r
    rw [hact] at hshared hown
    have hkind := Decomposition.act_kind hact
    refine .inr ⟨out, _, _, d', hshared, hown, ⟨?_, ?_, ?_, ?_⟩, hkind⟩
    · exact List.getElem?_set_self (List.getElem?_eq_some_iff.mp h.decomp).1
    · rw [h.alone]
      rfl
    · simp only [hkind, Function.update_self]
    · intro kind hne
      rw [hkind] at hne
      simp only [Function.update_of_ne hne]
      exact h.rest kind hne

/-- A call of another decomposition. -/
theorem step_other (h : View s own i d) (hkinds : s.kinds.Nodup) {j : Nat} (hj : j ≠ i) {c : Call F}
    {outs : List (Nat × List F)} {s' : Sharing F} (hstep : s.step (.call j c) = .some (outs, s')) :
    View s' own i d ∧ outputsOf i outs = [] := by
  obtain ⟨dj, hdj, hstep⟩ := Option.bind_eq_some_iff.mp hstep
  obtain ⟨⟨out, slot, d'⟩, hact, hstep⟩ := Option.bind_eq_some_iff.mp hstep
  cases hstep
  have hne : d.kind ≠ dj.kind := by
    intro heq
    have hlt : j < s.kinds.length := by
      rw [kinds, List.length_map]
      exact (List.getElem?_eq_some_iff.mp hdj).1
    refine hj ((List.getElem?_inj hlt hkinds).mp ?_)
    rw [kinds, List.getElem?_map, List.getElem?_map, hdj, h.decomp, Option.map_some, Option.map_some, heq]
  refine ⟨⟨?_, h.alone, ?_, h.rest⟩, ?_⟩
  · rw [List.getElem?_set_ne hj]
    exact h.decomp
  · simp only [h.slot, Function.update_of_ne hne]
  · rw [outputsOf, List.filterMap_cons, if_neg hj, List.filterMap_nil]

/-- An update of the checkpoints that every prefix takes part in. -/
theorem step_update (h : View s own i d) {outs : List (Nat × List F)} {s' : Sharing F}
    (hstep : s.step .updateCheckpoints = .some (outs, s')) :
    outs = [] ∧ ∃ own', own.step .updateCheckpoints = .some ([], own') ∧ View s' own' i d := by
  obtain ⟨houts, hdecomps, hslots⟩ := step_update_some hstep
  have hown : ∀ kind, (own.registry kind).updateCheckpoint = .some
      (if kind = d.kind then s'.registry kind else { own.registry kind with checkpoint := .none }) := by
    intro kind
    by_cases hkind : kind = d.kind
    · rw [if_pos hkind, hkind, h.slot, hslots]
    · simp only [if_neg hkind, Slot.updateCheckpoint, h.rest kind hkind]
  refine ⟨houts, _, step_update_of hown, ⟨?_, h.alone, ?_, ?_⟩⟩
  · rw [hdecomps]
    exact h.decomp
  · exact if_pos rfl
  · intro kind hne
    simp only [if_neg hne]
    exact h.rest kind hne

end Sharing.View

namespace Sharing

variable {s : Sharing F}

/-- A call changes the prefix of no decomposition. -/
theorem kinds_call {j : Nat} {c : Call F} {outs : List (Nat × List F)} {s' : Sharing F}
    (hstep : s.step (.call j c) = .some (outs, s')) : s'.kinds = s.kinds := by
  obtain ⟨dj, hdj, hstep⟩ := Option.bind_eq_some_iff.mp hstep
  obtain ⟨⟨out, slot, d'⟩, hact, hstep⟩ := Option.bind_eq_some_iff.mp hstep
  cases hstep
  have hlt := (List.getElem?_eq_some_iff.mp hdj).1
  rw [kinds, kinds, List.map_set, Decomposition.act_kind hact]
  refine List.ext_getElem? fun n => ?_
  by_cases hn : j = n
  · subst hn
    rw [List.getElem?_set_self (by rwa [List.length_map]), List.getElem?_map, hdj, Option.map_some]
  · rw [List.getElem?_set_ne hn]

theorem kinds_update {outs : List (Nat × List F)} {s' : Sharing F}
    (hstep : s.step .updateCheckpoints = .some (outs, s')) : s'.kinds = s.kinds := by
  rw [kinds, (step_update_some hstep).2.1, kinds]

theorem run_cons {s s1 : Sharing F} {e : Event F} {out : List (Nat × List F)} (hstep : s.step e = .some (out, s1))
    (es : List (Event F)) : s.run (e :: es) = (s1.run es).map fun r => (out ++ r.1, r.2) := by
  rw [run, hstep, Option.bind_eq_bind, Option.bind_some, Option.map_eq_bind]
  rfl

/-- A run of all is a run of each, which returns the same to it and leaves the same
checkpoint. -/
theorem run_own (es : List (Event F)) {s own : Sharing F} {i : Nat} {d : Decomposition F}
    (h : View s own i d) (hkinds : s.kinds.Nodup) {outs : List (Nat × List F)} {s' : Sharing F}
    (hrun : s.run es = .some (outs, s')) :
    ∃ outs' own', own.run (es.filterMap (Event.project i)) = .some (outs', own') ∧
      outs'.map Prod.snd = outputsOf i outs ∧
      (own'.registry d.kind).checkpoint = (s'.registry d.kind).checkpoint := by
  induction es generalizing s own d outs with
  | nil =>
    cases hrun
    exact ⟨[], own, rfl, rfl, by rw [h.slot]⟩
  | cons e es ih =>
    obtain ⟨⟨out, s1⟩, hstep, -⟩ := Option.bind_eq_some_iff.mp hrun
    rw [run_cons hstep] at hrun
    obtain ⟨⟨outs1, s2⟩, hrest, heq⟩ := Option.map_eq_some_iff.mp hrun
    cases heq
    have hsplit : outputsOf i (out ++ outs1) = outputsOf i out ++ outputsOf i outs1 := List.filterMap_append ..
    cases e with
    | updateCheckpoints =>
      obtain ⟨hout, own1, hown, hview⟩ := h.step_update hstep
      obtain ⟨outs', own', hrun', houts, hcheck⟩ := ih hview (kinds_update hstep ▸ hkinds) hrest
      refine ⟨outs', own', ?_, ?_, hcheck⟩
      · rw [List.filterMap_cons_some (by rfl), run_cons hown, hrun']
        rfl
      · rw [hsplit, hout, houts]
        rfl
    | call j c =>
      by_cases hj : j = i
      · subst hj
        rcases h.step_own hkinds c with ⟨hfail, -⟩ | ⟨o, s1', own1, d1, hs1, hown, hview, hkind⟩
        · rw [hfail] at hstep
          cases hstep
        · rw [hs1] at hstep
          cases hstep
          obtain ⟨outs', own', hrun', houts, hcheck⟩ := ih hview (kinds_call hs1 ▸ hkinds) hrest
          refine ⟨(0, o) :: outs', own', ?_, ?_, by rw [← hkind]; exact hcheck⟩
          · rw [List.filterMap_cons_some (by rw [Event.project, if_pos rfl]), run_cons hown, hrun']
            rfl
          · have hone : outputsOf j [(j, o)] = [o] := by
              rw [outputsOf, List.filterMap_cons_some (by rw [if_pos rfl]), List.filterMap_nil]
            rw [hsplit, List.map_cons, houts, hone]
            rfl
      · obtain ⟨hview, hout⟩ := h.step_other hkinds hj hstep
        obtain ⟨outs', own', hrun', houts, hcheck⟩ := ih hview (kinds_call hstep ▸ hkinds) hrest
        refine ⟨outs', own', ?_, ?_, hcheck⟩
        · rw [List.filterMap_cons_none (by rw [Event.project, if_neg hj])]
          exact hrun'
        · rw [hsplit, hout, houts]
          rfl

omit [JoltField F] in
theorem view_new {ds : List (Decomposition F)} {i : Nat} {d : Decomposition F} (hd : ds[i]? = .some d) :
    View (new ds) (new [d]) i d := ⟨hd, rfl, rfl, fun _ _ => rfl⟩

omit [JoltField F] in
theorem updateCheckpoint_poly {t t' : Slot F} (h : t.updateCheckpoint = .some t') : t'.poly = .none := by
  rw [Slot.updateCheckpoint] at h
  split at h
  · rename_i hnone
    cases h
    exact hnone
  · obtain ⟨cell, -, h⟩ := Option.bind_eq_some_iff.mp h
    obtain ⟨claim, -, h⟩ := Option.bind_eq_some_iff.mp h
    cases h
    rfl

/-- A call keeps polynomials of its decomposition's prefix only. -/
theorem owned_call (howned : s.Owned) {j : Nat} {c : Call F} {outs : List (Nat × List F)} {s' : Sharing F}
    (hstep : s.step (.call j c) = .some (outs, s')) : s'.Owned := by
  intro kind hpoly
  rw [kinds_call hstep]
  obtain ⟨dj, hdj, hstep⟩ := Option.bind_eq_some_iff.mp hstep
  obtain ⟨⟨out, slot, d'⟩, hact, hstep⟩ := Option.bind_eq_some_iff.mp hstep
  cases hstep
  by_cases hkind : kind = dj.kind
  · rw [hkind]
    exact List.mem_map.mpr ⟨dj, List.mem_of_getElem? hdj, rfl⟩
  · simp only [Function.update_of_ne hkind] at hpoly
    exact howned kind hpoly

/-- The run of all fails only where a run of one does. -/
theorem run_some (es : List (Event F)) {s : Sharing F} (own : Nat → Sharing F)
    (hviews : ∀ i d, s.decomps[i]? = .some d → View s (own i) i d) (hkinds : s.kinds.Nodup) (howned : s.Owned)
    (hcalls : ∀ i c, Event.call i c ∈ es → i < s.kinds.length)
    (hruns : ∀ i d, s.decomps[i]? = .some d → ∃ r, (own i).run (es.filterMap (Event.project i)) = .some r) :
    ∃ r, s.run es = .some r := by
  induction es generalizing s own with
  | nil => exact ⟨_, rfl⟩
  | cons e es ih =>
    have hrest : ∀ i c, Event.call i c ∈ es → i < s.kinds.length :=
      fun i c hmem => hcalls i c (List.mem_cons_of_mem _ hmem)
    cases e with
    | call j c =>
      have hj : j < s.decomps.length := by
        have := hcalls j c (List.mem_cons_self ..)
        rwa [kinds, List.length_map] at this
      have hd := List.getElem?_eq_getElem hj
      obtain ⟨r, hrun⟩ := hruns j _ hd
      rw [List.filterMap_cons_some (by rw [Event.project, if_pos rfl])] at hrun
      rcases (hviews j _ hd).step_own hkinds c with ⟨-, hfail⟩ | ⟨o, s', own', d', hs, hown, hview, hkind⟩
      · rw [run, hfail] at hrun
        cases hrun
      · rw [run_cons hown] at hrun
        obtain ⟨r1, hr1, -⟩ := Option.map_eq_some_iff.mp hrun
        have hother : ∀ i d, i ≠ j → s'.decomps[i]? = .some d → s.decomps[i]? = .some d := by
          intro i d hi hd'
          obtain ⟨dj, -, hstep⟩ := Option.bind_eq_some_iff.mp hs
          obtain ⟨t, -, hstep⟩ := Option.bind_eq_some_iff.mp hstep
          cases hstep
          rwa [List.getElem?_set_ne (Ne.symm hi)] at hd'
        have hviews' : ∀ i d, s'.decomps[i]? = .some d → View s' (Function.update own j own' i) i d := by
          intro i d hd'
          by_cases hi : i = j
          · subst hi
            rw [hview.decomp] at hd'
            cases hd'
            rw [Function.update_self]
            exact hview
          · rw [Function.update_of_ne hi]
            exact ((hviews i d (hother i d hi hd')).step_other hkinds (Ne.symm hi) hs).1
        have hruns' : ∀ i d, s'.decomps[i]? = .some d →
            ∃ r, (Function.update own j own' i).run (es.filterMap (Event.project i)) = .some r := by
          intro i d hd'
          by_cases hi : i = j
          · subst hi
            rw [Function.update_self]
            exact ⟨r1, hr1⟩
          · rw [Function.update_of_ne hi]
            obtain ⟨r3, hr3⟩ := hruns i d (hother i d hi hd')
            rw [List.filterMap_cons_none (by rw [Event.project, if_neg (Ne.symm hi)])] at hr3
            exact ⟨r3, hr3⟩
        obtain ⟨r2, hr2⟩ := ih _ hviews' (kinds_call hs ▸ hkinds) (owned_call howned hs)
          (kinds_call hs ▸ hrest) hruns'
        exact ⟨([(j, o)] ++ r2.1, r2.2), by rw [run_cons hs, hr2]; rfl⟩
    | updateCheckpoints =>
      have hownstep : ∀ i d, s.decomps[i]? = .some d → ∃ out own', (own i).step .updateCheckpoints = .some (out, own') ∧
          ∃ r, own'.run (es.filterMap (Event.project i)) = .some r := by
        intro i d hd
        obtain ⟨r, hrun⟩ := hruns i d hd
        rw [List.filterMap_cons_some (by rfl)] at hrun
        obtain ⟨⟨out, own'⟩, hown, -⟩ := Option.bind_eq_some_iff.mp hrun
        rw [run_cons hown] at hrun
        obtain ⟨r1, hr1, -⟩ := Option.map_eq_some_iff.mp hrun
        exact ⟨out, own', hown, r1, hr1⟩
      have hslot : ∀ kind, ∃ t, (s.registry kind).updateCheckpoint = .some t := by
        intro kind
        by_cases hpoly : (s.registry kind).poly = .none
        · exact ⟨_, by rw [Slot.updateCheckpoint, hpoly]⟩
        · obtain ⟨d, hmem, hkind⟩ := List.mem_map.mp (howned kind hpoly)
          obtain ⟨i, hi⟩ := List.mem_iff_getElem?.mp hmem
          obtain ⟨out, own', hown, -⟩ := hownstep i d hi
          exact ⟨_, by rw [← hkind, ← (hviews i d hi).slot]; exact (step_update_some hown).2.2 d.kind⟩
      choose slots hslots using hslot
      have hs := step_update_of hslots
      have howned' : Owned ⟨slots, s.decomps⟩ :=
        fun kind hpoly => absurd (updateCheckpoint_poly (hslots kind)) hpoly
      have hviews' : ∀ i d, s.decomps[i]? = .some d → View ⟨slots, s.decomps⟩
          ((((own i).step .updateCheckpoints).map Prod.snd).getD (own i)) i d := by
        intro i d hd
        obtain ⟨-, own', hown, hview⟩ := (hviews i d hd).step_update hs
        rw [hown]
        exact hview
      have hruns' : ∀ i d, s.decomps[i]? = .some d → ∃ r,
          ((((own i).step .updateCheckpoints).map Prod.snd).getD (own i)).run
            (es.filterMap (Event.project i)) = .some r := by
        intro i d hd
        obtain ⟨out, own', hown, hrun⟩ := hownstep i d hd
        rw [hown]
        exact hrun
      obtain ⟨r2, hr2⟩ := ih (s := ⟨slots, s.decomps⟩) _ hviews' hkinds howned' hrest hruns'
      exact ⟨([] ++ r2.1, r2.2), by rw [run_cons hs, hr2]; rfl⟩

/-- A run of new decompositions succeeds where that of each does. -/
theorem run_new {ds : List (Decomposition F)} (es : List (Event F)) (hkinds : (ds.map Decomposition.kind).Nodup)
    (hcalls : ∀ i c, Event.call i c ∈ es → i < ds.length)
    (hruns : ∀ i d, ds[i]? = .some d → ∃ r, (new [d]).run (es.filterMap (Event.project i)) = .some r) :
    ∃ r, (new ds).run es = .some r := by
  refine run_some es (fun i => new (ds[i]?.toList)) (fun i d hd => ?_) hkinds
    (fun kind hpoly => absurd rfl hpoly) (by simpa [kinds, new] using hcalls) (fun i d hd => ?_)
  · have hd' : ds[i]? = .some d := hd
    rw [hd']
    exact view_new hd
  · have hd' : ds[i]? = .some d := hd
    rw [hd']
    exact hruns i d hd

end Sharing

/-- **Sharing a registry**: of decompositions of different prefixes, a run in any order of
calls is for each a run of its own calls over a registry of its own. It fails only where
one of these does, returns the same to each, and leaves the same checkpoints. -/
theorem sharing_transparent {ds : List (Decomposition F)} (hkinds : (ds.map Decomposition.kind).Nodup)
    (es : List (Event F)) (hcalls : ∀ i c, Event.call i c ∈ es → i < ds.length) :
    ((∃ r, (Sharing.new ds).run es = .some r) ↔
      ∀ i d, ds[i]? = .some d → ∃ r, (Sharing.new [d]).run (es.filterMap (Event.project i)) = .some r) ∧
    ∀ outs s, (Sharing.new ds).run es = .some (outs, s) → ∀ i d, ds[i]? = .some d →
      ∃ outs' own, (Sharing.new [d]).run (es.filterMap (Event.project i)) = .some (outs', own) ∧
        outs'.map Prod.snd = outputsOf i outs ∧
        (own.registry d.kind).checkpoint = (s.registry d.kind).checkpoint := by
  have hown : ∀ outs s, (Sharing.new ds).run es = .some (outs, s) → ∀ i d, ds[i]? = .some d →
      ∃ outs' own, (Sharing.new [d]).run (es.filterMap (Event.project i)) = .some (outs', own) ∧
        outs'.map Prod.snd = outputsOf i outs ∧
        (own.registry d.kind).checkpoint = (s.registry d.kind).checkpoint :=
    fun outs s hrun i d hd => run_own es (view_new hd) hkinds hrun
  refine ⟨⟨?_, fun hruns => ?_⟩, hown⟩
  · rintro ⟨⟨outs, s⟩, hrun⟩ i d hd
    obtain ⟨outs', own, hrun', -⟩ := hown outs s hrun i d hd
    exact ⟨_, hrun'⟩
  · exact run_new es hkinds hcalls hruns

/-- A decomposition over two bits in one phase, with tables of its own. -/
def oneChunk (kind : Prefix) : Decomposition (ZMod 7) := ⟨kind, .none, ([1, 2, 3, 4], [0, 1, 0, 1]), 2, 2, 0, 0⟩

/-- A round of one decomposition after the round of another. -/
def twoOwners : List (Event (ZMod 7)) :=
  [.call 0 .initP, .call 1 .initP, .call 0 (.sumcheckEvals 0), .call 0 (.bind 3),
    .call 1 (.sumcheckEvals 0), .call 1 (.bind 3)]

theorem sharing_transparent_two :
    ((∃ r, (Sharing.new [oneChunk .identity, oneChunk .leftOperand]).run twoOwners = .some r) ↔
      ∀ i d, [oneChunk .identity, oneChunk .leftOperand][i]? = .some d →
        ∃ r, (Sharing.new [d]).run (twoOwners.filterMap (Event.project i)) = .some r) ∧
    ∀ outs s, (Sharing.new [oneChunk .identity, oneChunk .leftOperand]).run twoOwners = .some (outs, s) →
      ∃ outs' own, (Sharing.new [oneChunk .leftOperand]).run (twoOwners.filterMap (Event.project 1)) =
          .some (outs', own) ∧ outs'.map Prod.snd = outputsOf 1 outs ∧
        (own.registry .leftOperand).checkpoint = (s.registry .leftOperand).checkpoint := by
  have htwo := sharing_transparent (show ([oneChunk .identity, oneChunk .leftOperand].map
      Decomposition.kind).Nodup by decide) twoOwners (by
    intro i c hmem
    simp only [twoOwners, List.mem_cons, Event.call.injEq, List.not_mem_nil, or_false] at hmem
    rcases hmem with ⟨rfl, -⟩ | ⟨rfl, -⟩ | ⟨rfl, -⟩ | ⟨rfl, -⟩ | ⟨rfl, -⟩ | ⟨rfl, -⟩ <;> decide)
  exact ⟨htwo.1, fun outs s hrun => htwo.2 outs s hrun 1 (oneChunk .leftOperand) rfl⟩

/-- Two owners of one prefix: the second finds it bound in its own first round. -/
theorem sharing_diverges :
    ((Sharing.new [oneChunk .identity, oneChunk .identity]).run twoOwners).map (fun r => outputsOf 1 r.1) ≠
      ((Sharing.new [oneChunk .identity]).run (twoOwners.filterMap (Event.project 1))).map
        fun r => r.1.map Prod.snd := by
  decide

end LightningJolt
