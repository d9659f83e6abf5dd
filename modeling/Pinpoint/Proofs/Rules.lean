/-
Rules in a proof state.

A rule that is given as a text or as a written term is elaborated among the
hypotheses, so its proof mentions them and nothing else but what constants
mention; what it states is its type, which mentions no more than those
hypotheses and their types do.

* `LocalContext.ofHyps` — the hypotheses as a context, with their types as they are
  written;
* `mem_localContext` — the context in which rules are typed holds the
  hypotheses and the metavariables;
* `ruleTerm_eq_ok` — where the proof of a rule comes from;
* `ruleTerm_fvarsIn`, `ruleTerm_headFVarsIn` — the free variables of the proof of a
  rule, and those at its heads;
* `states_elaborateRule`, `scoped_elaborateRule` — those of what it states, and
  that it is well scoped.
-/
import Mathlib.Data.List.Induction
import Pinpoint.Proofs.Elaborated
import Pinpoint.Proofs.Hereditary
import Pinpoint.Proofs.Metavariables

namespace Pinpoint

/-- Whether a free variable is that of a hypothesis. -/
def IsHyp (hyps : List Hypothesis) (x : FVarId) : Prop := ∃ h ∈ hyps, h.fvar = x

instance IsHyp.decidable (hyps : List Hypothesis) : DecidablePred (IsHyp hyps) :=
  fun x => inferInstanceAs (Decidable (∃ h ∈ hyps, h.fvar = x))

/-- Whether a rule that is given as a term has free variables as asked.  What a
text or a written term mentions is decided by the proof state. -/
def RuleSpec.FVarsIn (p : FVarId → Prop) (spec : RuleSpec) : Prop :=
  match spec.term with
  | .expr e => e.FVarsIn p
  | _ => True

theorem RuleSpec.FVarsIn.mono {p q : FVarId → Prop} {spec : RuleSpec} (h : spec.FVarsIn p)
    (hpq : ∀ x, p x → q x) : spec.FVarsIn q := by
  unfold RuleSpec.FVarsIn at h ⊢
  cases hterm : spec.term with
  | expr e =>
    simp only [hterm] at h
    exact h.mono hpq
  | _ => trivial

/-! ### Contexts -/

section
variable {α : Type} {x : α → FVarId} {n : α → Name} {f : α → Option Expr}

/-- A context is built up by one entry and then by the others, on top of it. -/
theorem foldlM_push_cons {a : α} {l : List α} {Γ Γ' : LocalContext} :
    (a :: l).foldlM (fun Γ a => do return Γ.push (x a) (n a) (← f a)) Γ = some Γ' ↔
      ∃ type, f a = some type ∧
        l.foldlM (fun Γ a => do return Γ.push (x a) (n a) (← f a)) (Γ.push (x a) (n a) type) =
          some Γ' := by
  cases hf : f a <;> simp [List.foldlM_cons, hf]

/-- A context built up entry by entry has all of them, and those that it
began with. -/
theorem entries_of_foldlM_push {l : List α} {Γ Γ' : LocalContext}
    (h : l.foldlM (fun Γ a => do return Γ.push (x a) (n a) (← f a)) Γ = some Γ') :
    (∀ entry ∈ Γ.entries, entry ∈ Γ'.entries) ∧
      ∀ a ∈ l, ∃ type, f a = some type ∧ ⟨x a, n a, type⟩ ∈ Γ'.entries := by
  induction l generalizing Γ with
  | nil =>
    obtain rfl : Γ = Γ' := by simpa using h
    exact ⟨fun _ => id, fun a ha => absurd ha List.not_mem_nil⟩
  | cons a l ih =>
    obtain ⟨type, htype, h⟩ := foldlM_push_cons.mp h
    obtain ⟨hkeep, hadd⟩ := ih h
    refine ⟨fun entry hentry => hkeep entry (List.mem_cons_of_mem _ hentry), fun b hb => ?_⟩
    rcases List.mem_cons.mp hb with rfl | hb
    · exact ⟨type, htype, hkeep _ List.mem_cons_self⟩
    · exact hadd b hb

/-- It has no others. -/
theorem mem_entries_of_foldlM_push {l : List α} {Γ Γ' : LocalContext}
    (h : l.foldlM (fun Γ a => do return Γ.push (x a) (n a) (← f a)) Γ = some Γ')
    {entry : LocalEntry} (hentry : entry ∈ Γ'.entries) :
    entry ∈ Γ.entries ∨ ∃ a ∈ l, entry.fvar = x a ∧ f a = some entry.type := by
  induction l generalizing Γ with
  | nil =>
    obtain rfl : Γ = Γ' := by simpa using h
    exact .inl hentry
  | cons a l ih =>
    obtain ⟨type, htype, h⟩ := foldlM_push_cons.mp h
    rcases ih h with hentry | ⟨b, hb, hentry⟩
    · rcases List.mem_cons.mp hentry with rfl | hentry
      · exact .inr ⟨a, List.mem_cons_self, rfl, htype⟩
      · exact .inl hentry
    · exact .inr ⟨b, List.mem_cons_of_mem _ hb, hentry⟩

/-- A context can be built up entry by entry exactly if all entries have types. -/
theorem exists_foldlM_push_iff {l : List α} {Γ : LocalContext} :
    (∃ Γ', l.foldlM (fun Γ a => do return Γ.push (x a) (n a) (← f a)) Γ = some Γ') ↔
      ∀ a ∈ l, ∃ type, f a = some type := by
  constructor
  · rintro ⟨Γ', h⟩ a ha
    obtain ⟨type, htype, -⟩ := (entries_of_foldlM_push h).2 a ha
    exact ⟨type, htype⟩
  · intro h
    induction l generalizing Γ with
    | nil => exact ⟨Γ, rfl⟩
    | cons a l ih =>
      obtain ⟨type, htype⟩ := h a List.mem_cons_self
      obtain ⟨Γ', h'⟩ := ih fun b hb => h b (List.mem_cons_of_mem a hb)
      exact ⟨Γ', foldlM_push_cons.mpr ⟨type, htype, h'⟩⟩

end

namespace LocalContext

/-- The hypotheses as a context, each with its type as it is written. -/
def ofHyps (hyps : List Hypothesis) : LocalContext :=
  hyps.foldl (fun Γ h => Γ.push h.fvar (.ofString h.name) h.type) .empty

/-- The entry of a hypothesis. -/
def entryOf (h : Hypothesis) : LocalEntry := ⟨h.fvar, .ofString h.name, h.type⟩

theorem ofHyps_snoc (hyps : List Hypothesis) (h : Hypothesis) :
    ofHyps (hyps ++ [h]) = (ofHyps hyps).push h.fvar (.ofString h.name) h.type := by
  rw [ofHyps, List.foldl_append]
  rfl

theorem entries_ofHyps (hyps : List Hypothesis) :
    (ofHyps hyps).entries = (hyps.map entryOf).reverse := by
  induction hyps using List.reverseRecOn with
  | nil => rfl
  | append_singleton hyps h ih =>
    rw [ofHyps_snoc, List.map_append, List.reverse_append, ← ih]
    rfl

theorem mem_ofHyps {hyps : List Hypothesis} {entry : LocalEntry} :
    entry ∈ (ofHyps hyps).entries ↔ ∃ h ∈ hyps, entry = entryOf h := by
  simp [entries_ofHyps, eq_comm]

/-- A variable has the type of its hypothesis, if no two hypotheses share
one. -/
theorem find?_ofHyps {hyps : List Hypothesis} (hnodup : (hyps.map Hypothesis.fvar).Nodup)
    {h : Hypothesis} (hh : h ∈ hyps) : (ofHyps hyps).find? h.fvar = some (entryOf h) := by
  obtain ⟨before, after, rfl⟩ := List.append_of_mem hh
  -- the latest hypothesis is found first, and the ones after `h` have other variables
  have hafter : ((after.map entryOf).reverse.find? fun entry => entry.fvar = h.fvar) = none := by
    rw [List.map_append, List.map_cons, List.nodup_append, List.nodup_cons] at hnodup
    refine List.find?_eq_none.mpr fun entry hentry heq => hnodup.2.1.1 ?_
    obtain ⟨h', hh', rfl⟩ := List.mem_map.mp (List.mem_reverse.mp hentry)
    exact List.mem_map.mpr ⟨h', hh', of_decide_eq_true heq⟩
  rw [find?, entries_ofHyps, List.map_append, List.map_cons, List.reverse_append,
    List.reverse_cons, List.append_assoc, List.find?_append, hafter]
  simp [entryOf]

end LocalContext

namespace ProofState

variable {fuel : Nat} {st : ProofState} {g : Goal} {Γ : LocalContext} {spec : RuleSpec}
  {specs : List RuleSpec} {r : Rule} {entry : LocalEntry} {p q : FVarId → Prop}

/-- The hypotheses of a goal are in its context. -/
theorem mem_localContext_of_mem_hyps (hΓ : st.localContext? g = some Γ) {h : Hypothesis}
    (hh : h ∈ g.hyps) {type : Expr} (htype : st.metas.instantiate? h.type = some type) :
    ⟨h.fvar, .ofString h.name, type⟩ ∈ Γ.entries := by
  obtain ⟨Γ₁, hΓ₁, hΓ⟩ := Option.bind_eq_some_iff.mp hΓ
  obtain ⟨type', htype', hmem⟩ := (entries_of_foldlM_push hΓ₁).2 h hh
  rw [htype] at htype'
  obtain rfl := Option.some.inj htype'
  exact (entries_of_foldlM_push hΓ).1 _ hmem

theorem mem_of_hypOf {x : FVarId} {h : Hypothesis} (hh : (hypOf g x).run = some (.ok h)) :
    h ∈ g.hyps ∧ h.fvar = x := by
  unfold hypOf at hh
  cases hfind : g.hyps.find? fun h => h.fvar = x with
  | none => simp [hfind] at hh
  | some h' =>
    obtain rfl : h' = h := by simpa [hfind] using hh
    exact ⟨List.mem_of_find?_eq_some hfind, by simpa using List.find?_some hfind⟩

theorem checker?_of_hypContext? {fuel : Nat} (hΓ : st.hypContext? g = some Γ) :
    st.checker? fuel g = (st.addMetas? Γ).map fun Γ => ⟨st.env, Γ, fuel⟩ := by
  show Option.bind (Option.bind (st.hypContext? g) _) _ = _
  rw [hΓ, Option.bind_some]
  cases st.addMetas? Γ <;> rfl

/-- The entries of the context of the hypotheses are the hypotheses. -/
theorem mem_hypContext (hΓ : st.hypContext? g = some Γ) (hentry : entry ∈ Γ.entries) :
    ∃ h ∈ g.hyps, entry.fvar = h.fvar ∧ st.metas.instantiate? h.type = some entry.type :=
  (mem_entries_of_foldlM_push hΓ hentry).resolve_left List.not_mem_nil

/-- The entries of the whole context are the hypotheses and the
metavariables. -/
theorem mem_localContext (hΓ : st.localContext? g = some Γ) (hentry : entry ∈ Γ.entries) :
    (∃ h ∈ g.hyps, entry.fvar = h.fvar ∧ st.metas.instantiate? h.type = some entry.type) ∨
      st.metas.Has entry.fvar ∧
        ∃ v ∈ st.metas.metas, st.metas.instantiate? v.type = some entry.type := by
  obtain ⟨Γ₁, hΓ₁, hΓ⟩ := Option.bind_eq_some_iff.mp hΓ
  rcases mem_entries_of_foldlM_push hΓ hentry with hentry | ⟨⟨m, v⟩, hmem, hfvar, htype⟩
  · exact .inl (mem_hypContext hΓ₁ hentry)
  · obtain ⟨⟨v', i⟩, hi, heq⟩ := List.mem_map.mp hmem
    obtain ⟨rfl, rfl⟩ := Prod.mk.inj heq
    have hget := List.mem_zipIdx' hi
    exact .inr ⟨⟨i, hget.1, hfvar⟩, v', hget.2 ▸ List.getElem_mem _, htype⟩

/-! ### Elaboration -/

/-- A rule that is elaborated comes from a proof that has a type. -/
theorem elaborateRule_eq_ok (h : (st.elaborateRule fuel g spec).run = some (.ok r)) :
    ∃ reversed type statement, (st.ruleTerm fuel g spec).run = some (.ok (r.proof, reversed)) ∧
      st.inferType fuel g r.proof = some (.ok type) ∧
      type.telescope.2.statement? = some statement ∧
      r = ⟨r.proof, type.telescope.1, statement, reversed, spec.describe⟩ := by
  unfold elaborateRule at h
  obtain ⟨⟨proof, reversed⟩, hterm, h⟩ := QueryM.run_bind_eq_ok.mp h
  obtain ⟨result, hresult, h⟩ := QueryM.run_bind_eq_ok.mp h
  have hresult := QueryM.run_lift_eq_ok.mp hresult
  cases result with
  | error e => exact absurd h QueryM.not_run_throw_eq_ok
  | ok type =>
    dsimp only at h
    cases hr : Rule.ofProof? proof type reversed spec.describe with
    | none =>
      rw [hr] at h
      exact absurd h QueryM.not_run_throw_eq_ok
    | some r' =>
      rw [hr] at h
      obtain rfl := QueryM.run_pure_eq_ok.mp h
      obtain ⟨statement, hstatement, rfl⟩ := Option.map_eq_some_iff.mp hr
      exact ⟨reversed, type, statement, hterm, hresult, hstatement, Eq.refl _⟩

theorem elaborateRules_eq_ok {rules : List Rule}
    (h : (st.elaborateRules fuel g specs).run = some (.ok rules)) (hr : r ∈ rules) :
    ∃ spec ∈ specs, (st.elaborateRule fuel g spec).run = some (.ok r) := by
  unfold elaborateRules at h
  induction specs generalizing rules with
  | nil =>
    obtain rfl : [] = rules := by simpa using h
    cases hr
  | cons spec specs ih =>
    rw [List.mapM_cons] at h
    obtain ⟨r₀, hr₀, h⟩ := QueryM.run_bind_eq_ok.mp h
    obtain ⟨rules₀, hrules₀, h⟩ := QueryM.run_bind_eq_ok.mp h
    obtain rfl := QueryM.run_pure_eq_ok.mp h
    rcases List.mem_cons.mp hr with rfl | hr
    · refine ⟨spec, List.mem_cons_self, ?_⟩
      rw [QueryM.run_adapt] at hr₀
      obtain ⟨x, hx, hr₀⟩ := Option.map_eq_some_iff.mp hr₀
      cases x with
      | error e => cases hr₀
      | ok r' => rw [hx, Except.ok.inj hr₀]
    · obtain ⟨spec', hspec', h'⟩ := ih hrules₀ hr
      exact ⟨spec', List.mem_cons_of_mem _ hspec', h'⟩

theorem inferType_eq_ok {e type : Expr} (h : st.inferType fuel g e = some (.ok type)) :
    ∃ Γ e' T s, st.localContext? g = some Γ ∧ st.metas.instantiate? e = some e' ∧
      (st.env.inferType fuel Γ e').Returns Checker.firstFresh T s ∧
      st.metas.instantiate? T = some type := by
  unfold ProofState.inferType at h
  obtain ⟨checker, hchecker, h⟩ := Option.bind_eq_some_iff.mp h
  obtain ⟨e', he', h⟩ := Option.bind_eq_some_iff.mp h
  obtain ⟨result, hresult, h⟩ := Option.bind_eq_some_iff.mp h
  obtain ⟨Γ, hΓ, hchecker⟩ := Option.bind_eq_some_iff.mp hchecker
  obtain rfl := Option.some.inj hchecker
  cases result with
  | error e => simp at h
  | ok T =>
    obtain ⟨type', htype, h⟩ := Option.bind_eq_some_iff.mp h
    obtain rfl : type' = type := by simpa using h
    obtain ⟨s, hT⟩ := CheckM.runFresh_eq_ok.mp hresult
    exact ⟨Γ, e', T, s, hΓ, he', hT, htype⟩

/-- A term without holes has the type in a goal that it has in the context of the
goal, if that has no holes either. -/
theorem inferType_of_returns {e T : Expr} {s : UInt64} (hΓ : st.localContext? g = some Γ)
    (he : e.FVarsIn fun x => st.metas.valueOf? x = none)
    (hT : T.FVarsIn fun x => st.metas.valueOf? x = none)
    (h : (st.env.inferType fuel Γ e).Returns Checker.firstFresh T s) :
    st.inferType fuel g e = some (.ok T) := by
  have he : st.metas.instantiate? e = some e := MetaContext.instantiateUpTo_eq_self he
  have hT : st.metas.instantiate? T = some T := MetaContext.instantiateUpTo_eq_self hT
  have hrun : (st.env.inferType fuel Γ e).runFresh = some (.ok T) :=
    CheckM.runFresh_eq_ok.mpr ⟨s, h⟩
  rw [inferType, checker?, hΓ, he]
  show ((st.env.inferType fuel Γ e).runFresh).bind _ = _
  rw [hrun]
  show (st.metas.instantiate? T).bind _ = _
  rw [hT]
  rfl

/-! ### Free variables -/

/-- The proof of a rule is the term that the rule was given as, or is read among
the hypotheses. -/
theorem ruleTerm_eq_ok {proof : Expr} {reversed : Bool}
    (h : (st.ruleTerm fuel g spec).run = some (.ok (proof, reversed))) :
    spec.term = .expr proof ∨ ∃ Γ t s, st.hypContext? g = some Γ ∧
      (Elaboration.elaborate st.env fuel Γ t).Returns Elaboration.firstBinder proof s := by
  have hread : ∀ {t : Surface.Term} {e : Expr}, st.elaborateIn fuel g t = some (.ok e) →
      ∃ Γ t s, st.hypContext? g = some Γ ∧
        (Elaboration.elaborate st.env fuel Γ t).Returns Elaboration.firstBinder e s := by
    intro t e he
    obtain ⟨Γ, hΓ, he⟩ := Option.bind_eq_some_iff.mp he
    obtain ⟨s, hs⟩ := Elaboration.runFresh_eq_ok.mp he
    exact ⟨Γ, t, s, hΓ, hs⟩
  unfold ruleTerm at h
  cases hterm : spec.term with
  | text s =>
    simp only [hterm] at h
    split at h
    · exact absurd h QueryM.not_run_throw_eq_ok
    · obtain ⟨r, hr, h⟩ := QueryM.run_bind_eq_ok.mp h
      have hr := QueryM.run_lift_eq_ok.mp hr
      cases r with
      | error e => exact absurd h QueryM.not_run_throw_eq_ok
      | ok e =>
        obtain ⟨rfl, -⟩ := Prod.mk.inj (QueryM.run_pure_eq_ok.mp h)
        exact .inr (hread hr)
  | written t =>
    simp only [hterm] at h
    obtain ⟨r, hr, h⟩ := QueryM.run_bind_eq_ok.mp h
    have hr := QueryM.run_lift_eq_ok.mp hr
    cases r with
    | error e => exact absurd h QueryM.not_run_throw_eq_ok
    | ok e =>
      obtain ⟨rfl, -⟩ := Prod.mk.inj (QueryM.run_pure_eq_ok.mp h)
      exact .inr (hread hr)
  | expr e =>
    simp only [hterm] at h
    obtain ⟨rfl, -⟩ := Prod.mk.inj (QueryM.run_pure_eq_ok.mp h)
    exact .inl (Eq.refl _)

/-- The proof of a rule mentions what the context of the hypotheses and constants
mention. -/
theorem ruleTerm_fvarsIn_of_context (henv : st.env.FVarsIn p)
    (hΓ : ∀ Γ, st.hypContext? g = some Γ → Γ.FVarsIn p) (hspec : spec.FVarsIn p) {proof : Expr}
    {reversed : Bool} (h : (st.ruleTerm fuel g spec).run = some (.ok (proof, reversed))) :
    proof.FVarsIn p := by
  rcases ruleTerm_eq_ok h with hterm | ⟨Γ, t, s, hΓ', hproof⟩
  · rwa [RuleSpec.FVarsIn, hterm] at hspec
  · exact Elaboration.elaborate_fvarsIn henv (hΓ Γ hΓ') t hproof

/-- The variables at the heads of a proof that is read are hypotheses. -/
theorem ruleTerm_headFVarsIn (hspec : ∀ e, spec.term ≠ .expr e) {proof : Expr}
    {reversed : Bool} (h : (st.ruleTerm fuel g spec).run = some (.ok (proof, reversed))) :
    proof.HeadFVarsIn (IsHyp g.hyps) := by
  rcases ruleTerm_eq_ok h with hterm | ⟨Γ, t, s, hΓ, hproof⟩
  · exact absurd hterm (hspec proof)
  · refine Elaboration.elaborate_headFVarsIn (fun entry hentry => ?_) t hproof
    obtain ⟨hyp, hhyp, hfvar, -⟩ := mem_hypContext hΓ hentry
    exact ⟨hyp, hhyp, hfvar.symm⟩

/-- The proof of a rule mentions hypotheses and what constants mention. -/
theorem ruleTerm_fvarsIn (henv : st.env.FVarsIn p) (hp : ∀ x, p x → ¬ st.metas.Has x)
    (hhyps : ∀ h ∈ g.hyps, p h.fvar ∧ h.type.FVarsIn p) (hspec : spec.FVarsIn p) {proof : Expr}
    {reversed : Bool} (h : (st.ruleTerm fuel g spec).run = some (.ok (proof, reversed))) :
    proof.FVarsIn p := by
  refine ruleTerm_fvarsIn_of_context henv (fun Γ hΓ entry hentry => ?_) hspec h
  obtain ⟨h, hh, hfvar, htype⟩ := mem_hypContext hΓ hentry
  obtain ⟨hx, hT⟩ := hhyps h hh
  rw [hfvar, ← MetaContext.eq_of_instantiate? (hT.mono hp) htype]
  exact ⟨hx, hT⟩

/-- What a rule states mentions the variables of its proof and those of their
types. -/
theorem states_elaborateRule (henv : st.env.FVarsIn q) (hpq : ∀ x, p x → q x)
    (hq : ∀ x, q x → ¬ st.metas.Has x) (hhyps : ∀ h ∈ g.hyps, p h.fvar → h.type.FVarsIn q)
    (hproof : r.proof.FVarsIn p) (h : (st.elaborateRule fuel g spec).run = some (.ok r)) :
    r.States fun _ => Expr.FVarsIn q := by
  obtain ⟨reversed, type, statement, -, htype, hstatement, hr⟩ := elaborateRule_eq_ok h
  obtain ⟨Γ, e, T, s, hΓ, he, hT, hinst⟩ := inferType_eq_ok htype
  obtain rfl := MetaContext.eq_of_instantiate? (hproof.mono fun x hx => hq x (hpq x hx)) he
  have hTq : T.FVarsIn q := by
    refine henv.inferType hpq (fun x entry hx hentry => ?_) hproof hT
    have hfvar : entry.fvar = x := by simpa using List.find?_some hentry
    rcases mem_localContext hΓ (List.mem_of_find?_eq_some hentry) with ⟨h, hh, hfvar', hinst⟩ | hmeta
    · have htypeq := hhyps h hh (hfvar' ▸ hfvar ▸ hx)
      rwa [← MetaContext.eq_of_instantiate? (htypeq.mono hq) hinst]
    · exact absurd (hfvar ▸ hmeta.1) (hq x (hpq x hx))
  obtain rfl := MetaContext.eq_of_instantiate? (hTq.mono hq) hinst
  have hP := Expr.fvarsIn_hereditary q
  obtain ⟨hc, hl, hrhs⟩ := hP.statement? (n := 0) (hP.telescope (n := 0) hTq) hstatement
  rw [hr]
  exact ⟨hc, hl, hrhs⟩

/-! ### Bound variables -/

/-- The proof of a rule is well scoped, for it has a type. -/
theorem scoped_proof_elaborateRule (h : (st.elaborateRule fuel g spec).run = some (.ok r)) :
    r.proof.Scoped 0 := by
  obtain ⟨-, type, -, -, htype, -⟩ := elaborateRule_eq_ok h
  obtain ⟨Γ, e, T, s, -, he, hT, -⟩ := inferType_eq_ok htype
  exact MetaContext.scoped_of_instantiateUpTo he (Environment.scoped_of_inferType hT)

/-- What a rule states is well scoped under its variables, if the types of the
context are well scoped. -/
theorem scoped_elaborateRule (henv : st.env.Closed)
    (hvalues : ∀ v ∈ st.metas.metas, ∀ e, v.value = some e → e.Scoped 0)
    (hΓ : ∀ Γ, st.localContext? g = some Γ → Γ.Closed)
    (h : (st.elaborateRule fuel g spec).run = some (.ok r)) : r.States Expr.Scoped := by
  obtain ⟨reversed, type, statement, -, htype, hstatement, hr⟩ := elaborateRule_eq_ok h
  obtain ⟨Γ, e, T, s, hΓ', -, hT, hinst⟩ := inferType_eq_ok htype
  have hscoped : type.Scoped 0 := MetaContext.scoped_instantiateUpTo hvalues hinst
    (Environment.inferType_scoped henv (hΓ Γ hΓ') hT)
  have hbody := Expr.scoped_hereditary.telescope hscoped
  rw [Nat.zero_add] at hbody
  obtain ⟨hc, hl, hrhs⟩ := Expr.scoped_hereditary.statement? hbody hstatement
  rw [hr]
  exact ⟨hc, hl, hrhs⟩

end ProofState

end Pinpoint
