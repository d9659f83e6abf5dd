/-
What a rewrite at one location leaves as it was.

A rewrite that fails changes nothing.  One at the target changes the target, and
adds the metavariable of the new goal; one at a hypothesis changes that
hypothesis, and records its value.  The variable of the new hypothesis comes from
a counter, which is above all variables that the proof has met so far.

* `TargetReplaced`, `HypReplaced` — what changes, and what does not;
* `Recorded.run` — each hypothesis is one that the proof began with, or its value
  is recorded;
* `Linear.fvarsIn_ne_next` — nothing mentions the variable that the counter stands
  at;
* `nthRewrite_local` — what a rewrite at one location does in a state that a run
  leads to.
-/
import Pinpoint.Proofs.References

namespace Pinpoint

/-! ### One statement replaced -/

namespace ProofState

/-- Whether a proof state is another one with the target of its first goal
replaced. -/
structure TargetReplaced (st st' : ProofState) (g : Goal) (target proof : Expr) : Prop where
  env : st'.env = st.env
  nextFVar : st'.nextFVar = st.nextFVar
  hypValues : st'.hypValues = st.hypValues
  goals : ∃ rest, st.goals = g :: rest ∧
    st'.goals = { g with metaId := st.metas.nextId, target := target } :: rest
  metas : st'.metas = (st.metas.push target).assign g.metaId proof

end ProofState

/-- Whether a goal is another one with the hypothesis at a place replaced. -/
structure Goal.HypReplaced (g g' : Goal) (pos : Nat) (old new : Hypothesis) : Prop where
  metaId : g'.metaId = g.metaId
  target : g'.target = g.target
  old : g.hyps[pos]? = some old
  new : g'.hyps[pos]? = some new
  length : g'.hyps.length = g.hyps.length
  names : g'.hyps.map Hypothesis.name = g.hyps.map Hypothesis.name
  others : ∀ i ≠ pos, g'.hyps[i]? = g.hyps[i]?

/-- A hypothesis put in the place of one of its name. -/
theorem Goal.HypReplaced.set {g : Goal} {pos : Nat} {old new : Hypothesis}
    (hold : g.hyps[pos]? = some old) (hname : new.name = old.name) :
    g.HypReplaced { g with hyps := g.hyps.set pos new } pos old new := by
  have hlt := (List.getElem?_eq_some_iff.mp hold).1
  refine ⟨rfl, rfl, hold, List.getElem?_set_self hlt, List.length_set, ?_,
    fun i hi => List.getElem?_set_ne hi.symm⟩
  refine List.ext_getElem? fun i => ?_
  rw [List.getElem?_map, List.getElem?_map]
  by_cases hi : i = pos
  · rw [hi, List.getElem?_set_self hlt, hold, Option.map_some, Option.map_some, hname]
  · rw [List.getElem?_set_ne (Ne.symm hi)]

namespace ProofState

/-- Whether a proof state is another one with a hypothesis of its first goal
replaced, and the value of the new one recorded. -/
structure HypReplaced (st st' : ProofState) (pos : Nat) (old new : Hypothesis) (v : Expr) :
    Prop where
  env : st'.env = st.env
  metas : st'.metas = st.metas
  goals : ∃ g g' rest, st.goals = g :: rest ∧ st'.goals = g' :: rest ∧
    g.HypReplaced g' pos old new
  fvar : new.fvar = ⟨st.nextFVar⟩
  nextFVar : st'.nextFVar = st.nextFVar + 1
  value : new.value = some v
  hypValues : st'.hypValues = st.hypValues ++ [(new.fvar, v)]

variable {st st' : ProofState} {g : Goal} {eq : Equation} {x : FVarId}

theorem targetReplaced_of_replaceTarget (h : (st.replaceTarget eq).run = some (.ok st')) :
    ∃ g proof, st.TargetReplaced st' g eq.rhs proof := by
  obtain ⟨g, -, proof, hg, -, -, -, rfl⟩ := replaceTarget_eq_ok h
  obtain ⟨rest, hgoals⟩ := List.head?_eq_some_iff.mp hg
  refine ⟨g, proof, Eq.refl _, Eq.refl _, Eq.refl _, ⟨rest, hgoals, ?_⟩, Eq.refl _⟩
  rw [hgoals]
  rfl

theorem hypReplaced_of_replaceHyp (h : (st.replaceHyp x eq).run = some (.ok st')) :
    ∃ pos old new v, old.fvar = x ∧ new.type = eq.rhs ∧ st.HypReplaced st' pos old new v := by
  obtain ⟨g, old, -, v, hg, hold, -, -, -, -, rfl⟩ := replaceHyp_eq_ok h
  obtain ⟨rest, hgoals⟩ := List.head?_eq_some_iff.mp hg
  have hx : old.fvar = x := by simpa using List.find?_some hold
  rw [List.find?_eq_getElem?_findIdx] at hold
  exact ⟨_, old, ⟨⟨st.nextFVar⟩, old.name, eq.rhs, some v⟩, v, hx, Eq.refl _, Eq.refl _, Eq.refl _,
    ⟨g, _, rest, hgoals, congrArg (_ :: List.tail ·) hgoals, .set hold (Eq.refl _)⟩, Eq.refl _,
    Eq.refl _, Eq.refl _, Eq.refl _⟩

end ProofState

/-! ### Values of hypotheses -/

/-- Whether each hypothesis is one of the given ones, or its value is recorded. -/
def ProofState.Recorded (hyps : List Hypothesis) (st : ProofState) : Prop :=
  ∀ g ∈ st.goals, ∀ h ∈ g.hyps, h ∈ hyps ∨ ∃ v, h.value = some v ∧ (h.fvar, v) ∈ st.hypValues

namespace ProofState.Recorded

variable {hyps : List Hypothesis} {st st' : ProofState}

theorem replace {site : Site} {eq : Equation} (hst : st.Recorded hyps)
    (h : (st.replace site eq).run = some (.ok st')) : st'.Recorded hyps := by
  cases site with
  | goal =>
    obtain ⟨g, proof, -, -, hvalues, ⟨rest, hgoals, hgoals'⟩, -⟩ := targetReplaced_of_replaceTarget h
    intro g' hg' h hh
    rw [hvalues]
    rw [hgoals'] at hg'
    rcases List.mem_cons.mp hg' with rfl | hg'
    · exact hst g (hgoals ▸ List.mem_cons_self) h hh
    · exact hst g' (hgoals ▸ List.mem_cons_of_mem _ hg') h hh
  | hyp x =>
    obtain ⟨pos, old, new, v, -, -, -, -, ⟨g, g₁, rest, hgoals, hgoals', hg₁⟩, -, -, hv, hvalues⟩ :=
      hypReplaced_of_replaceHyp h
    have hold : ∀ g' ∈ st.goals, ∀ h ∈ g'.hyps,
        h ∈ hyps ∨ ∃ v, h.value = some v ∧ (h.fvar, v) ∈ st'.hypValues := by
      intro g' hg' h hh
      refine (hst g' hg' h hh).imp_right fun ⟨w, hw, hmem⟩ => ⟨w, hw, ?_⟩
      rw [hvalues]
      exact List.mem_append_left _ hmem
    intro g' hg' h hh
    rw [hgoals'] at hg'
    rcases List.mem_cons.mp hg' with rfl | hg'
    · obtain ⟨i, hi⟩ := List.mem_iff_getElem?.mp hh
      by_cases hpos : i = pos
      · obtain rfl : new = h := Option.some.inj ((hpos ▸ hg₁.new).symm.trans hi)
        refine .inr ⟨v, hv, ?_⟩
        rw [hvalues]
        exact List.mem_append_right _ List.mem_cons_self
      · rw [hg₁.others i hpos] at hi
        exact hold g (hgoals ▸ List.mem_cons_self) h (List.mem_of_getElem? hi)
    · exact hold g' (hgoals ▸ List.mem_cons_of_mem _ hg') h hh

theorem close {fuel : Nat} (hst : st.Recorded hyps) (h : (st.rfl fuel).run = some (.ok st')) :
    st'.Recorded hyps := by
  obtain ⟨g, target, s, refl, -, -, -, -, -, rfl⟩ := rfl_eq_ok h
  exact fun g' hg' => hst g' (List.mem_of_mem_tail hg')

/-- In every state that a run leads to each hypothesis is one that the proof
began with, or its value is recorded. -/
theorem run {allowed : ProofState → Call → Prop} (hst : st.Recorded hyps)
    (hrun : st.Run allowed st') : st'.Recorded hyps := by
  refine hrun.keeps (fun st c st' hst _ hc => ?_) hst
  cases hc with
  | closed hrfl => exact hst.close hrfl
  | refused _ => exact hst
  | rewrite h =>
    exact nthRewrite_keeps h hst (fun _ _ _ _ _ _ h => Selection.rewrite_keeps
      (fun _ _ _ _ hst _ _ hreplace => hst.replace hreplace) h hst) fun _ _ hst => hst.close

end ProofState.Recorded

/-! ### What a proof state mentions -/

/-- Whether everything in a proof state mentions only the given free variables,
those of its hypotheses and of its metavariables among them. -/
structure ProofState.FVarsIn (p : FVarId → Prop) (st : ProofState) : Prop where
  env : st.env.FVarsIn p
  targets : ∀ g ∈ st.goals, g.target.FVarsIn p
  hyps : ∀ g ∈ st.goals, ∀ h ∈ g.hyps,
    p h.fvar ∧ h.type.FVarsIn p ∧ ∀ v, h.value = some v → v.FVarsIn p
  has : ∀ x, st.metas.Has x → p x
  metas : ∀ m ∈ st.metas.metas, m.type.FVarsIn p ∧ ∀ v, m.value = some v → v.FVarsIn p
  hypValues : ∀ x v, (x, v) ∈ st.hypValues → p x ∧ v.FVarsIn p

theorem ProofState.FVarsIn.mono {p q : FVarId → Prop} {st : ProofState} (h : st.FVarsIn p)
    (hpq : ∀ x, p x → q x) : st.FVarsIn q where
  env := h.env.mono hpq
  targets g hg := (h.targets g hg).mono hpq
  hyps g hg h' hh' := by
    obtain ⟨hx, htype, hvalue⟩ := h.hyps g hg h' hh'
    exact ⟨hpq _ hx, htype.mono hpq, fun v hv => (hvalue v hv).mono hpq⟩
  has x hx := hpq x (h.has x hx)
  metas m hm := ⟨(h.metas m hm).1.mono hpq, fun v hv => ((h.metas m hm).2 v hv).mono hpq⟩
  hypValues x v hmem := ⟨hpq x (h.hypValues x v hmem).1, (h.hypValues x v hmem).2.mono hpq⟩

/-- Whether a free variable is one that the elaborator or the checker draws. -/
def FVarId.IsDrawn (x : FVarId) : Prop := 2 ^ 61 ≤ x.id.toNat

theorem growing_lt_or_isDrawn (n : Nat) :
    Growing n fun k x => x.id.toNat < n + k ∨ x.IsDrawn where
  mono hx := hx.imp_left Nat.lt_succ_of_lt
  rewritten hk := .inl ((growing_lt n).rewritten hk)
  plain hk hx := by
    rcases hx with hx | hx
    · exact (growing_lt n).plain hk hx
    · exact .inr (Nat.le_trans (by decide) hx)

namespace Linear

variable {n : Nat} {p : Nat → FVarId → Prop} {hyps : List Hypothesis} {st : ProofState}

/-- A proof state mentions what its terms may mention, and metavariables. -/
theorem fvarsIn (hp : Growing n p) (hst : Linear n p st) (hroom : st.HasRoom n)
    (hrecorded : st.Recorded hyps)
    (hhyps : ∀ h ∈ hyps, ∀ v, h.value = some v → v.FVarsIn (p 0)) :
    st.FVarsIn fun x => p st.hypValues.length x ∨ st.metas.Has x := by
  have hbegin : ∀ x, p 0 x → p st.hypValues.length x ∨ st.metas.Has x :=
    fun x hx => .inl (hp.le (Nat.zero_le _) hx)
  have hknown : ∀ {e : Expr}, e.FVarsIn (p st.hypValues.length) →
      e.FVarsIn fun x => p st.hypValues.length x ∨ st.metas.Has x :=
    fun he => he.mono fun _ => .inl
  have hcurrent : ∀ g ∈ st.goals, st.currentGoal? = some g := by
    intro g hg
    rcases hst.goals with hnil | ⟨g', hone⟩
    · rw [hnil] at hg
      cases hg
    · rw [hone] at hg
      rw [ProofState.currentGoal?, hone, List.mem_singleton.mp hg]
      rfl
  -- A rewritten hypothesis has a value of earlier variables.
  have hvalues : ∀ x v, (x, v) ∈ st.hypValues →
      p st.hypValues.length x ∧ v.FVarsIn (p st.hypValues.length) := by
    intro x v hmem
    obtain ⟨j, hj⟩ := List.mem_iff_getElem?.mp hmem
    obtain ⟨hlt, -⟩ := List.getElem?_eq_some_iff.mp hj
    obtain ⟨rfl, hv⟩ := hst.rewritten j x v hj
    have hhyps := hroom.hyps
    exact ⟨hp.le hlt (hp.rewritten (by omega)), hv.mono fun _ => hp.le (Nat.le_of_lt hlt)⟩
  constructor
  case env => exact hst.env.mono hbegin
  case targets => exact fun g hg => hknown (hst.target_fvarsIn (hcurrent g hg))
  case hyps =>
    intro g hg h hh
    obtain ⟨hx, htype⟩ := hst.hyps g (hcurrent g hg) h hh
    refine ⟨.inl hx, hknown htype, fun v hv => ?_⟩
    -- Its value is the one that it began with or one that was recorded.
    rcases hrecorded g hg h hh with hh | ⟨w, hw, hmem⟩
    · exact (hhyps h hh v hv).mono hbegin
    · obtain rfl := Option.some.inj (hw.symm.trans hv)
      exact hknown (hvalues _ _ hmem).2
  case has => exact fun x hx => .inr hx
  case metas =>
    intro m hm
    refine ⟨hknown (hst.types m hm), fun v hv => ?_⟩
    -- A value mentions later metavariables only, which are there.
    obtain ⟨i, hi⟩ := List.mem_iff_getElem?.mp hm
    obtain ⟨hlt, -⟩ := List.getElem?_eq_some_iff.mp hi
    have hmetas := hroom.metas
    have hid : (UInt64.ofNat i).toNat = i := UInt64.toNat_ofNat_of_lt' (show i < 2 ^ 64 by omega)
    have hvalue : st.metas.value? ⟨.ofNat i⟩ = some v := by
      show (st.metas.metas[(UInt64.ofNat i).toNat]?).bind _ = _
      rw [hid, hi]
      exact hv
    refine (hst.values _ v hvalue).mono fun x hx => hx.imp_right ?_
    rintro ⟨m', rfl, -, hlt'⟩
    exact ⟨m'.index.toNat, hlt', by rw [UInt64.ofNat_toNat]⟩
  case hypValues => exact fun x v hmem => ⟨.inl (hvalues x v hmem).1, hknown (hvalues x v hmem).2⟩

/-- Nothing mentions the variable that the counter stands at, as long as that is
in its range. -/
theorem fvarsIn_ne_next (hst : Linear n (fun k x => x.id.toNat < n + k ∨ x.IsDrawn) st)
    (hnext : n + st.hypValues.length < 2 ^ 40) (hmetas : st.metas.metas.length ≤ 2 ^ 40)
    (hrecorded : st.Recorded hyps)
    (hhyps : ∀ h ∈ hyps, ∀ v, h.value = some v →
      v.FVarsIn fun x => x.id.toNat < n ∨ x.IsDrawn) :
    st.FVarsIn (· ≠ ⟨st.nextFVar⟩) := by
  have hid : st.nextFVar.toNat = n + st.hypValues.length := hst.toNat_nextFVar (by omega)
  refine (hst.fvarsIn (growing_lt_or_isDrawn n) ⟨Nat.le_of_lt hnext, hmetas⟩ hrecorded hhyps).mono ?_
  rintro x hx rfl
  rcases hx with (hx | hx) | hx
  · exact absurd hx (by dsimp only; omega)
  · have hle : 2 ^ 61 ≤ st.nextFVar.toNat := hx
    omega
  · have hle : 2 ^ 40 ≤ st.nextFVar.toNat := ((MetaContext.has_iff (by omega)).mp hx).1
    omega

end Linear

/-! ### Proofs begun in scope -/

/-- Whether a proof is begun in scope: the hypotheses are numbered in order,
each mentions earlier ones only, the target mentions hypotheses, and the
constants mention nothing. -/
structure BeginsInScope (env : Environment) (target : Expr) (hyps : List Hypothesis) : Prop where
  env : env.FVarsIn FVarId.IsDrawn
  ids : hyps.map (fun h => h.fvar.id.toNat) = List.range hyps.length
  earlier : ∀ before h after, hyps = before ++ h :: after →
    h.type.FVarsIn (IsHyp before) ∧ ∀ v, h.value = some v → v.FVarsIn (IsHyp before)
  target : target.FVarsIn (IsHyp hyps)

/-- What holds of each element and those before it. -/
theorem forall_append_cons_of_take {α : Type} {l : List α} {P : List α → α → Prop}
    (h : ∀ i (hi : i < l.length), P (l.take i) l[i]) (before : List α) (a : α) (after : List α)
    (hsplit : l = before ++ a :: after) : P before a := by
  subst hsplit
  have hlt : before.length < (before ++ a :: after).length := by simp
  simpa using h before.length hlt

namespace BeginsInScope

variable {env : Environment} {target : Expr} {hyps : List Hypothesis} {st : ProofState}

/-- The counter begins above the hypotheses. -/
theorem lt_nextFVar (hbegin : BeginsInScope env target hyps)
    (hroom : (ProofState.start env target hyps).nextFVar.toNat ≤ 2 ^ 40) {x : FVarId}
    (hx : IsHyp hyps x) : x.id.toNat < (ProofState.start env target hyps).nextFVar.toNat := by
  -- The numbers have no gaps, so if there were more of them, the counter would be above.
  have hle : ∀ h ∈ hyps, h.fvar.id + 1 ≤ (ProofState.start env target hyps).nextFVar :=
    fun h hh => le_foldl_max (.inr (List.mem_map_of_mem (f := fun h => h.fvar.id + 1) hh))
  have hfew : hyps.length ≤ 2 ^ 40 := by
    by_contra hmany
    have hmem : 2 ^ 40 ∈ hyps.map fun h => h.fvar.id.toNat := by
      rw [hbegin.ids, List.mem_range]
      omega
    obtain ⟨h, hh, hid⟩ := List.mem_map.mp hmem
    have := hle h hh
    rw [UInt64.le_iff_toNat_le, UInt64.toNat_add, UInt64.toNat_one] at this
    omega
  obtain ⟨h, hh, rfl⟩ := hx
  have hmem : h.fvar.id.toNat ∈ hyps.map fun h => h.fvar.id.toNat :=
    List.mem_map_of_mem (f := fun h => h.fvar.id.toNat) hh
  rw [hbegin.ids, List.mem_range] at hmem
  exact ProofState.lt_nextFVar_start hh (by omega)

/-- Each hypothesis mentions hypotheses. -/
theorem isHyp (hbegin : BeginsInScope env target hyps) {h : Hypothesis} (hh : h ∈ hyps) :
    h.type.FVarsIn (IsHyp hyps) ∧ ∀ v, h.value = some v → v.FVarsIn (IsHyp hyps) := by
  obtain ⟨before, after, hsplit⟩ := List.append_of_mem hh
  obtain ⟨htype, hvalue⟩ := hbegin.earlier before h after hsplit
  have hmono : ∀ x, IsHyp before x → IsHyp hyps x := by
    rintro x ⟨h', hh', rfl⟩
    exact ⟨h', hsplit ▸ List.mem_append_left _ hh', rfl⟩
  exact ⟨htype.mono hmono, fun v hv => (hvalue v hv).mono hmono⟩

section
variable (hbegin : BeginsInScope env target hyps)
  (hrun : (ProofState.start env target hyps).Run
    (fun _ c => c.RulesIn fun x => IsHyp hyps x ∨ x.IsDrawn) st)
include hbegin hrun

/-- In every state that a run leads to terms mention what the counter has passed. -/
theorem linear (hroom : st.HasRoom (ProofState.start env target hyps).nextFVar.toNat) :
    Linear (ProofState.start env target hyps).nextFVar.toNat
      (fun k x => x.id.toNat < (ProofState.start env target hyps).nextFVar.toNat + k ∨ x.IsDrawn)
      st := by
  have hbelow : ∀ x, IsHyp hyps x →
      x.id.toNat < (ProofState.start env target hyps).nextFVar.toNat + 0 ∨ x.IsDrawn :=
    fun x hx => .inl (hbegin.lt_nextFVar (Nat.le_trans (Nat.le_add_right _ _) hroom.hyps) hx)
  refine (Linear.start (hbegin.env.mono fun _ => .inr) (hbegin.target.mono hbelow) fun h hh =>
    ⟨hbelow _ ⟨h, hh, rfl⟩, (hbegin.isHyp hh).1.mono hbelow⟩).run (growing_lt_or_isDrawn _)
    (hrun.mono fun _ c hc => hc.mono fun x hx => ?_) hroom
  exact hx.elim (hbelow x) .inr

/-- In every state that a run leads to nothing mentions the variable that the
counter stands at. -/
theorem fvarsIn_ne_next
    (hnext : (ProofState.start env target hyps).nextFVar.toNat + st.hypValues.length < 2 ^ 40)
    (hmetas : st.metas.metas.length ≤ 2 ^ 40) : st.FVarsIn (· ≠ ⟨st.nextFVar⟩) := by
  have hrecorded : st.Recorded hyps := ProofState.Recorded.run
    (fun g hg h hh => .inl <| by obtain rfl := List.mem_singleton.mp hg; exact hh) hrun
  refine (hbegin.linear hrun ⟨Nat.le_of_lt hnext, hmetas⟩).fvarsIn_ne_next hnext hmetas hrecorded
    fun h hh v hv => ((hbegin.isHyp hh).2 v hv).mono fun x hx => .inl ?_
  exact hbegin.lt_nextFVar (Nat.le_trans (Nat.le_add_right _ _) (Nat.le_of_lt hnext)) hx

end

end BeginsInScope

/-- A rewrite at one location that succeeds replaces the statement there. -/
theorem ProofState.rewriteAtLocation_eq_ok {fuel : Nat} {sel : Selection} {loc : Location}
    {st st' : ProofState} (h : (st.rewriteAtLocation fuel sel loc).run = some (.ok st')) :
    ∃ site eq, (st.resolve loc).run = some (.ok site) ∧
      (st.selectedEquation fuel sel site).run = some (.ok eq) ∧
      (st.replace site eq).run = some (.ok st') := by
  unfold rewriteAtLocation at h
  rw [QueryM.run_adapt] at h
  obtain ⟨_ | st₁, hst₁, heq⟩ := Option.map_eq_some_iff.mp h
  · cases heq
  obtain rfl := Except.ok.inj heq
  obtain ⟨site, hsite, h⟩ := QueryM.run_bind_eq_ok.mp hst₁
  obtain ⟨eq, heq, h⟩ := rewriteAt_eq_ok.mp h
  exact ⟨site, eq, hsite, heq, h⟩

theorem ProofState.resolve_goal {st : ProofState} {site : Site}
    (h : (st.resolve .goal).run = some (.ok site)) : site = .goal := by
  obtain ⟨g, -, h⟩ := QueryM.run_bind_eq_ok.mp h
  exact (QueryM.run_pure_eq_ok.mp h).symm

theorem ProofState.resolve_hyp {st : ProofState} {name : String} {site : Site}
    (h : (st.resolve (.hyp name)).run = some (.ok site)) : ∃ x, site = .hyp x := by
  obtain ⟨g, -, h⟩ := QueryM.run_bind_eq_ok.mp h
  cases hfind : g.findHyp? name with
  | none => simp [hfind] at h
  | some old =>
    simp only [hfind] at h
    exact ⟨_, (QueryM.run_pure_eq_ok.mp h).symm⟩

/-- A rewrite at one location, in a state that a run leads to: if it fails, it
leaves the state as it was; at the target it replaces the target, and gives the
metavariable of the goal a value, which has had none; at a hypothesis it replaces
that hypothesis by one whose variable nothing has mentioned before. -/
theorem nthRewrite_local {env : Environment} {target : Expr} {hyps : List Hypothesis}
    {st st' : ProofState} {fuel index : Nat} {side : Option Side} {specs : List RuleSpec}
    {loc : Location} {options : RewriteOptions} {r : Except RewriteError RewriteOutcome}
    (hbegin : BeginsInScope env target hyps)
    (hrun : (ProofState.start env target hyps).Run
      (fun _ c => c.RulesIn fun x => IsHyp hyps x ∨ x.IsDrawn) st)
    (hloc : loc ≠ .everywhere) (hrfl : options.tryRfl = false)
    (h : (nthRewrite fuel side index specs loc options).answer st = some (r, st')) :
    (∀ e, r = .error e → st' = st) ∧
      ∀ o, r = .ok o → o = ⟨[loc], []⟩ ∧
        (loc = .goal → ∃ g target' proof, st.TargetReplaced st' g target' proof ∧
          (st'.HasRoom (ProofState.start env target hyps).nextFVar.toNat →
            st.metas.get? g.metaId = some ⟨g.target, none⟩)) ∧
        (∀ name, loc = .hyp name → ∃ pos old new v,
          (st.resolve loc).run = some (.ok (.hyp old.fvar)) ∧ st.HypReplaced st' pos old new v ∧
          (st'.HasRoom (ProofState.start env target hyps).nextFVar.toNat →
            st.FVarsIn (· ≠ new.fvar))) := by
  rw [nthRewrite_answer hloc hrfl] at h
  obtain ⟨_ | rules, -, h⟩ := Option.bind_eq_some_iff.mp h
  · obtain ⟨rfl, rfl⟩ := Prod.mk.inj (Option.some.inj h)
    exact ⟨fun _ _ => rfl, nofun⟩
  obtain ⟨_ | st₁, hst₁, h⟩ := Option.map_eq_some_iff.mp h
  · obtain ⟨rfl, rfl⟩ := Prod.mk.inj h
    exact ⟨fun _ _ => rfl, nofun⟩
  obtain ⟨rfl, rfl⟩ := Prod.mk.inj h
  refine ⟨nofun, fun o ho => ⟨(Except.ok.inj ho).symm, ?_⟩⟩
  -- The rewrite succeeds, so one statement is replaced along an equation.
  obtain ⟨site, eq, hsite, -, hreplace⟩ := ProofState.rewriteAtLocation_eq_ok hst₁
  have hlen := ProofState.length_le_of_replace hreplace
  constructor
  · -- At the target the metavariable of the goal is given the cast of a new one.
    rintro rfl
    obtain rfl := ProofState.resolve_goal hsite
    obtain ⟨g, proof, hg⟩ := ProofState.targetReplaced_of_replaceTarget hreplace
    refine ⟨g, eq.rhs, proof, hg, fun hroom => ?_⟩
    obtain ⟨rest, hgoals, -⟩ := hg.goals
    exact (hbegin.linear hrun (hroom.of_le hlen.1 hlen.2)).hole g (congrArg List.head? hgoals)
  · -- At a hypothesis the new one takes the next number, which nothing has had before.
    rintro name rfl
    obtain ⟨x, rfl⟩ := ProofState.resolve_hyp hsite
    obtain ⟨pos, old, new, v, rfl, -, hst⟩ := ProofState.hypReplaced_of_replaceHyp hreplace
    refine ⟨pos, old, new, v, hsite, hst, fun hroom => ?_⟩
    have hhyps := hroom.hyps
    rw [hst.hypValues, List.length_append, List.length_singleton] at hhyps
    rw [hst.fvar]
    exact hbegin.fvarsIn_ne_next hrun (by omega) (hst.metas ▸ hroom.metas)

/-! ### A hypothesis rewritten twice -/

namespace Locality

def nat : Expr := .const Vocabulary.nat []

def a : Expr := .const (.simple "a") []

def b : Expr := .const (.simple "b") []

/-- A property of numbers. -/
def holds (e : Expr) : Expr := .app (.const (.simple "P") []) e

def constants : List Constant :=
  [⟨.simple "a", [], nat, none⟩, ⟨.simple "b", [], nat, none⟩,
    ⟨.simple "P", [], .pi .default nat .prop, none⟩]

def env : Environment := ⟨Prelude.constants ++ constants⟩

/-- An equation between two numbers, and that one of them has the property. -/
def hyps : List Hypothesis :=
  [⟨⟨0⟩, "e", .mkEq .one nat a b, none⟩, ⟨⟨1⟩, "h", holds a, none⟩]

def start : ProofState := .start env (holds b) hyps

/-- The equation as a rule, in either direction. -/
def spec (reversed : Bool) : RuleSpec := { RuleSpec.ofText "e" with reversed }

def rewritten (reversed : Bool) (st : ProofState) :
    Option (Except RewriteError RewriteOutcome × ProofState) :=
  (nthRewrite 20 none 0 [spec reversed] (.hyp "h") ⟨false, none⟩).answer st

theorem beginsInScope : BeginsInScope env (holds b) hyps where
  env := (Environment.fvarFree_prelude_append (by decide)).fvarsIn
  ids := by decide
  earlier := forall_append_cons_of_take (by decide)
  target := by decide

theorem run_of_rewritten {st : ProofState} {r : Except RewriteError RewriteOutcome}
    (h : rewritten false start = some (r, st)) :
    start.Run (fun _ c => c.RulesIn fun x => IsHyp hyps x ∨ x.IsDrawn) st :=
  .cons (by simp [Call.RulesIn, RuleSpec.FVarsIn, RuleSpec.ofText, spec]) (.rewrite h) (.nil st)

end Locality

open Locality in
/-- The hypothesis is rewritten forth and back; it gets a variable of its own
again, which nothing mentions after it was rewritten once. -/
theorem fresh_of_rewritten_twice :
    ∃ st st', rewritten false start = some (.ok ⟨[.hyp "h"], []⟩, st) ∧
      rewritten true st = some (.ok ⟨[.hyp "h"], []⟩, st') ∧
      ∃ pos old new v, st.HypReplaced st' pos old new v ∧ st.FVarsIn (· ≠ new.fvar) := by
  obtain ⟨st, hst, h⟩ : ∃ st, rewritten false start = some (.ok ⟨[.hyp "h"], []⟩, st) ∧
      (rewritten true st).map (fun p => (p.1.toOption, p.2.hypValues.length,
        p.2.metas.metas.length)) = some (some ⟨[.hyp "h"], []⟩, 2, 1) :=
    ChangeM.answer_eq_ok (by decide +kernel)
  obtain ⟨st', hst', hlen⟩ := ChangeM.answer_eq_ok
    (g := fun st : ProofState => (st.hypValues.length, st.metas.metas.length)) h
  obtain ⟨hvalues, hmetas⟩ := Prod.mk.inj hlen
  have hloc : Location.hyp "h" ≠ .everywhere := by decide
  obtain ⟨-, hok⟩ := nthRewrite_local beginsInScope (run_of_rewritten hst) hloc rfl hst'
  obtain ⟨pos, old, new, v, -, hreplaced, hfresh⟩ := (hok _ rfl).2.2 "h" rfl
  exact ⟨st, st', hst, hst', pos, old, new, v, hreplaced,
    hfresh ⟨by rw [hvalues]; decide, by rw [hmetas]; decide⟩⟩

end Pinpoint
