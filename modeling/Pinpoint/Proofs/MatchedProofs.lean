/-
Proofs of matches.

A match in which all variables have values is an instance of its rule: applied
to the values, the proof of the rule has the statement of the rule at the values
as its type.  A search compares the type of a value with the type of its
variable at all values before it at once, while the checker goes through the
variables one at a time; where the search and the checker may draw variables
anywhere, both find the same.

* `FVarFree.argsFit_of_valuesHaveTypes` — values that a search accepts are
  arguments that fit;
* `Rule.argsFit_of_mem_findMatches` — so are the values of a match;
* `Expr.stripMData_of_statement?` — a term is the statement that is read from it,
  unless it writes equivalences with universe arguments;
* `ProofState.matched_proof_typed` — the proof of a rule at the values of a match;
* `matched_proof_untyped` — a match with a hypothesis whose variable is one of the
  checker's, a rule at a hypothesis that is a metavariable with a value, and a rule
  that states an equivalence with a universe.
-/
import Pinpoint.Proofs.Enumeration
import Pinpoint.Proofs.Mentions
import Pinpoint.Proofs.Soundness
import Pinpoint.Proofs.WellTyped

namespace Pinpoint

/-- The statement at values of its variables. -/
def Statement.instantiateRev (s : Statement) (vals : List Expr) : Statement :=
  { s with
    carrier := s.carrier.instantiateRev vals
    lhs := s.lhs.instantiateRev vals
    rhs := s.rhs.instantiateRev vals }

theorem Statement.toExpr_instantiateRev (s : Statement) (vals : List Expr) :
    s.toExpr.instantiateRev vals = (s.instantiateRev vals).toExpr := by
  unfold toExpr rebuild
  cases hrel : s.relation <;> simp only [instantiateRev, hrel] <;> rfl

/-! ### Values that fit -/

namespace Environment

variable {checker : Checker} {earlier types vals : List Expr} {s s' : UInt64}

/-- Values that a search accepts fit the types of their variables, each at the
values before it. -/
theorem FVarFree.argsFit_of_valuesHaveTypes (henv : checker.env.FVarFree)
    (hlocals : checker.locals.FVarsIn FVarId.IsOuter)
    (hvals : ∀ v ∈ vals, v.FVarsIn FVarId.IsOuter) (hlen : types.length = vals.length)
    (hs : Checker.firstFresh ≤ s)
    (hroom : s.toNat + Substitution.draws checker.fuel (vals.map some) < 2 ^ 64)
    (h : (valuesHaveTypes checker (earlier.map some) types (vals.map some)).run s =
      some (true, s')) : checker.env.ArgsFit checker.locals earlier types vals := by
  induction vals generalizing earlier types s with
  | nil =>
    rw [List.length_eq_zero_iff.mp hlen]
    trivial
  | cons v vals ih =>
    rcases types with _ | ⟨type, types⟩
    · cases hlen
    · obtain ⟨T, t, hT, hdef, hrest⟩ := valuesHaveTypes_cons_some h
      rw [List.map_cons, Substitution.draws_cons] at hroom
      obtain rfl := supply_of_returns hT
      obtain ⟨hnext, hroom'⟩ := Supply.range_add hs hroom (Nat.le_refl _)
      refine ⟨⟨T, ?_, checker.fuel, hdef⟩, ih (fun w hw => hvals w (List.mem_cons_of_mem v hw))
        (Nat.succ.inj hlen) hnext hroom' hrest⟩
      refine henv.gives_of_returns hlocals (hvals v List.mem_cons_self) hT hs ?_
      have hdraw : s.toNat + (v.openings checker.fuel + _) < 2 ^ 64 := hroom
      omega

end Environment

namespace Rule

variable {checker : Checker} {limit : Option Nat} {host : Expr} {r : Rule} {m : Match}
  {found : List Match} {vals : List Expr} {s : UInt64}

/-- The values of a match are parts of the term, and fit the variables of the
rule. -/
theorem argsFit_of_mem_findMatches (henv : checker.env.FVarFree)
    (hlocals : checker.locals.FVarsIn FVarId.IsOuter) (hhost : host.FVarsIn FVarId.IsOuter)
    (hs : Checker.firstFresh ≤ s) (hroom : s.toNat + r.draws checker limit host < 2 ^ 64)
    (hfound : (r.findMatches checker host limit).run' s = some found) (hm : m ∈ found)
    (hvals : m.subst = vals.map some) :
    checker.env.ArgsFit checker.locals [] r.varTypes vals ∧ r.varTypes.length = vals.length ∧
      ∀ p, host.FVarsIn p → ∀ v ∈ vals, v.FVarsIn p := by
  have hfirst : Checker.firstFresh.toNat + r.draws checker limit host < 2 ^ 64 := by
    rw [UInt64.le_iff_toNat_le] at hs
    omega
  rw [(r.steady_findMatches henv hlocals hhost limit).run'_eq hs hroom] at hfound
  obtain ⟨-, rfl⟩ := (r.findMatches_runFresh_iff henv hlocals hhost
    (by rw [Environment.toNat_firstFresh] at hfirst; omega)).mp hfound
  obtain ⟨hm, hwithin⟩ := List.mem_filter.mp hm
  -- the draws for one match are among those of the search
  have hdraws : m.subst.draws checker.fuel ≤ r.draws checker limit host :=
    List.le_sum_of_mem (List.mem_map_of_mem (List.mem_filter.mpr ⟨(List.mem_filter.mp hm).1, hwithin⟩))
  obtain ⟨hsubterm, -, hmatch, htyped⟩ := mem_occurrences_iff.mp hm
  rw [hvals] at hmatch hdraws htyped
  obtain ⟨s', htyped⟩ := Supply.runFresh_eq_some.mp htyped
  have htyped : (valuesHaveTypes checker (([] : List Expr).map some) r.varTypes
      (vals.map some)).run Checker.firstFresh = some (true, s') := htyped
  have hlen := (match?_spec hmatch).1
  have hparts : ∀ p, host.FVarsIn p → ∀ v ∈ vals, v.FVarsIn p := by
    intro p hp v hv
    refine Expr.FVarsIn.of_matchAt? (hp.subterm? hsubterm) (fun w hw => ?_) hmatch v
      (List.mem_map_of_mem hv)
    simp at hw
  exact ⟨henv.argsFit_of_valuesHaveTypes hlocals (hparts _ hhost) hlen.symm UInt64.le_rfl
    (by omega) htyped, hlen.symm, hparts⟩

end Rule

/-! ### What a type states -/

theorem Expr.ConstsIn.stripMData {p : Name → Nat → Prop} {e : Expr} (h : e.ConstsIn p) :
    e.stripMData.ConstsIn p := by
  induction e with
  | mdata m e ih => exact ih h
  | _ => exact h

theorem Expr.ConstsIn.telescope {p : Name → Nat → Prop} {e : Expr} (h : e.ConstsIn p) :
    e.telescope.2.ConstsIn p := by
  induction e with
  | mdata m e ih => exact ih h
  | pi i dom body _ ihb => exact ihb h.2
  | _ => exact h

/-- Whether equivalences are written as in the prelude, without universe
arguments. -/
def PlainIff (n : Name) (arity : Nat) : Prop := n = Vocabulary.iff → arity = 0

/-- A term is the statement that is read from it, if equivalences are written
without universe arguments. -/
theorem Expr.stripMData_of_statement? {e : Expr} {s : Statement} (he : e.ConstsIn PlainIff)
    (hs : e.statement? = some s) : e.stripMData = s.toExpr := by
  rcases statement?_eq_some hs with ⟨-, h⟩ | ⟨hrel, -, -, ls, h⟩
  · exact h
  · have hplain := he.stripMData
    rw [h] at hplain
    obtain rfl := List.length_eq_zero_iff.mp (hplain.1.1 rfl)
    rw [h, Statement.toExpr, Statement.rebuild, hrel]
    rfl

/-! ### Matches in a proof state -/

/-- Whether the context of a goal gives its hypotheses well-typed types, mentions
none of the checker's own variables, and the hypotheses are no metavariables that
have a value. -/
structure ProofState.HasContext (st : ProofState) (g : Goal) (Γ : LocalContext) : Prop where
  context : st.localContext? g = some Γ
  types : ∀ h ∈ g.hyps, ∀ entry, Γ.find? h.fvar = some entry → st.env.IsType Γ entry.type
  outer : Γ.FVarsIn FVarId.IsOuter
  hyps : ∀ h ∈ g.hyps, st.metas.valueOf? h.fvar = none

/-- Whether the constants of an environment were checked, have no free variables,
and write equivalences without universe arguments. -/
structure Environment.Plain (env : Environment) : Prop where
  checked : env.Checked
  fvarFree : env.FVarFree
  iff : ∀ k, env.Declares Vocabulary.iff k → k = 0

theorem Environment.Plain.plainIff {env : Environment} (henv : env.Plain) {n : Name} {k : Nat}
    (h : env.Declares n k) : PlainIff n k := by
  rintro rfl
  exact henv.iff k h

namespace ProofState

variable {st : ProofState} {g : Goal} {Γ : LocalContext} {spec : RuleSpec} {r : Rule} {fuel : Nat}
  {e type T : Expr} {s s' : UInt64}

namespace HasContext

/-- No type in a context has holes. -/
theorem filled (hst : st.HasContext g Γ) {entry : LocalEntry} (hentry : entry ∈ Γ.entries) :
    entry.type.FVarsIn fun x => st.metas.valueOf? x = none := by
  rcases mem_localContext hst.context hentry with ⟨h, -, -, hinst⟩ | ⟨-, v, -, hinst⟩ <;>
    exact MetaContext.fvarsIn_instantiate? hinst

/-- The type of a term without holes has none. -/
theorem filled_inferType (hst : st.HasContext g Γ) (henv : st.env.Plain)
    (he : e.FVarsIn fun x => st.metas.valueOf? x = none)
    (h : (st.env.inferType fuel Γ e).Returns s T s') :
    T.FVarsIn fun x => st.metas.valueOf? x = none :=
  henv.fvarFree.fvarsIn.inferType (fun _ hx => hx)
    (fun _ _ _ hentry => hst.filled (List.mem_of_find?_eq_some hentry)) he h

/-- The proof of a rule that is read from a text mentions no variables of the
checker and has no holes. -/
theorem proof_fvarsIn (hst : st.HasContext g Γ) (henv : st.env.Plain) {text : String}
    (htext : spec.term = .text text) (hr : (st.elaborateRule fuel g spec).run = some (.ok r)) :
    r.proof.FVarsIn fun x => x.IsOuter ∧ st.metas.valueOf? x = none := by
  obtain ⟨_, _, _, hterm, -, -, -⟩ := elaborateRule_eq_ok hr
  refine ruleTerm_fvarsIn_of_context henv.fvarFree.fvarsIn
    (fun Γ₀ hΓ₀ entry hentry => ?_) (by rw [RuleSpec.FVarsIn, htext]; trivial) hterm
  obtain ⟨Γ₁, hΓ₁, hΓ⟩ := Option.bind_eq_some_iff.mp hst.context
  obtain rfl := Option.some.inj (hΓ₀.symm.trans hΓ₁)
  have hmem := (entries_of_foldlM_push hΓ).1 entry hentry
  obtain ⟨hx, htype⟩ := hst.outer entry hmem
  obtain ⟨h, hh, hfvar, -⟩ := mem_hypContext hΓ₀ hentry
  exact ⟨⟨hx, hfvar ▸ hst.hyps h hh⟩, Expr.fvarsIn_iff.mpr fun x hx =>
    ⟨Expr.fvarsIn_iff.mp htype x hx, Expr.fvarsIn_iff.mp (hst.filled hmem) x hx⟩⟩

/-- The type of a term that applies no variables but hypotheses writes
equivalences without universe arguments. -/
theorem constsIn_inferType (hst : st.HasContext g Γ) (henv : st.env.Plain)
    (he : e.HeadFVarsIn (IsHyp g.hyps)) (h : (st.env.inferType fuel Γ e).Returns s T s') :
    T.ConstsIn PlainIff := by
  have hplain : ∀ {e : Expr}, e.ConstsIn st.env.Declares → e.ConstsIn PlainIff :=
    fun he => he.mono fun _ _ => henv.plainIff
  have hconstants : st.env.ConstsIn PlainIff := fun c hc =>
    have hc := henv.checked.selfContained c hc
    ⟨hplain hc.1, fun v hv => hplain (hc.2 v hv)⟩
  refine hconstants.inferType (fun _ => Eq.refl 0) (fun _ => Eq.refl 0)
    (he.mono fun x hx entry hentry => ?_) (hplain (Environment.constsIn_of_inferType h)) h
  obtain ⟨hyp, hhyp, rfl⟩ := hx
  obtain ⟨n, t, S, t', -, htype, -⟩ := hst.types hyp hhyp entry hentry
  exact hplain (Environment.constsIn_of_inferType htype)

end HasContext

/-- The proof of a rule that is read from a text, applied to the values that all
variables have in a match, has the statement of the rule at these values as its
type, up to metadata: in the context of the goal, and in the goal itself if the
term that was searched has no holes. -/
theorem matched_proof_typed (henv : st.env.Plain) (hst : st.HasContext g Γ) {text : String}
    (htext : spec.term = .text text) (hr : (st.elaborateRule fuel g spec).run = some (.ok r))
    (htype : st.inferType fuel g r.proof = some (.ok type)) (hnesting : type.nesting < 2 ^ 31)
    {n : Nat} {limit : Option Nat} {host : Expr} (hhost : host.FVarsIn FVarId.IsOuter)
    (hs : Checker.firstFresh ≤ s)
    (hroom : s.toNat + r.draws ⟨st.env, Γ, n⟩ limit host < 2 ^ 64) {found : List Match}
    (hfound : (r.findMatches ⟨st.env, Γ, n⟩ host limit).run' s = some found) {m : Match}
    (hm : m ∈ found) {vals : List Expr} (hvals : m.subst = vals.map some)
    (hsize : (Expr.mkApp r.proof vals).nesting < 2 ^ 31)
    (hfits : (Expr.mkApp r.proof vals).FitsRange) :
    ∃ k T, ((Checker.mk st.env Γ k).inferType (.mkApp r.proof vals)).runFresh = some (.ok T) ∧
      T.eqModMData (r.statement.instantiateRev vals).toExpr = true ∧
      ((host.FVarsIn fun x => st.metas.valueOf? x = none) →
        st.inferType k g (.mkApp r.proof vals) = some (.ok T)) := by
  obtain ⟨reversed, type', statement, hterm, htype', hstatement, hrule⟩ := elaborateRule_eq_ok hr
  obtain rfl : type = type' := by simpa [htype] using htype'
  have hvarTypes : r.varTypes = type.telescope.1 := by rw [hrule]
  have hrstatement : r.statement = statement := by rw [hrule]
  have hproof := hst.proof_fvarsIn henv htext hr
  -- neither the proof of the rule nor its type has a hole
  obtain ⟨Γ', e, T₀, t, hΓ', he, hT₀, hinst⟩ := inferType_eq_ok htype
  obtain rfl := Option.some.inj (hst.context.symm.trans hΓ')
  obtain rfl := Option.some.inj
    ((MetaContext.instantiateUpTo_eq_self (hproof.mono fun _ hx => hx.2)).symm.trans he)
  obtain rfl := Option.some.inj ((MetaContext.instantiateUpTo_eq_self
    (hst.filled_inferType henv (hproof.mono fun _ hx => hx.2) hT₀)).symm.trans hinst)
  obtain ⟨hargs, hlen, hparts⟩ := Rule.argsFit_of_mem_findMatches henv.fvarFree hst.outer hhost hs
    hroom hfound hm hvals
  rw [hvarTypes] at hargs hlen
  -- what the checker finds from its first variable it finds from any other, so the
  -- arguments that fitted in the search fit in the application
  have hlimits : (Expr.mkApp r.proof vals).WithinLimits :=
    ⟨Expr.FVarsIn.mkApp.mpr ⟨hproof.mono fun _ hx => hx.1, hparts _ hhost⟩, hsize, hfits⟩
  have hgives : st.env.Gives Γ r.proof T₀ := henv.fvarFree.gives_of_returns hst.outer
    hlimits.mkApp.1.outer hT₀ UInt64.le_rfl (Nat.le_of_lt (hlimits.mkApp.1.fits fuel))
  obtain ⟨T, hT, hstrip⟩ := hgives.mkApp_telescope hargs hlen
    (fun v hv => (hlimits.mkApp.2 v hv).nesting) hnesting
  obtain ⟨k, hk⟩ := hT.infers hfits
  refine ⟨k, T, hk, ?_, fun hfilled => ?_⟩
  · have hheads := ruleTerm_headFVarsIn (fun e he => by rw [htext] at he; cases he) hterm
    have hplain := (hst.constsIn_inferType henv hheads hT₀).telescope
    have hstatement := Expr.stripMData_of_statement? hplain hstatement
    rw [Expr.eqModMData_iff, ← Expr.skeleton_stripMData T, hstrip, ← Expr.stripMData_instantiateRev,
      hstatement, Expr.skeleton_stripMData, hrstatement, Statement.toExpr_instantiateRev]
  · obtain ⟨t, hk⟩ := CheckM.runFresh_eq_ok.mp hk
    have happ := Expr.FVarsIn.mkApp.mpr ⟨hproof.mono fun _ hx => hx.2, hparts _ hfilled⟩
    exact inferType_of_returns hst.context happ (hst.filled_inferType henv happ hk) hk

end ProofState

/-! ### A hypothesis as a value -/

namespace MatchedProofs

open Enumeration (nat functions number constantly host nearer)

/-- The only hypothesis, a text. -/
def hyps (x : FVarId) : List Hypothesis := [⟨x, "F", .const Vocabulary.string [], none⟩]

/-- The goal to prove the statement about two functions, the value of the second
of which is the hypothesis. -/
def goal (x : FVarId) : Goal := ⟨⟨0⟩, host x, hyps x⟩

def start (x : FVarId) : ProofState := .start Enumeration.env (host x) (hyps x)

/-- The hypothesis, and the goal as a metavariable. -/
def context (x : FVarId) : LocalContext :=
  (LocalContext.empty.push x (.ofString "F") (.const Vocabulary.string [])).push
    (MetaId.toFVar ⟨0⟩) (.ofString "?m0") (host x)

/-- The first function as it is found. -/
def farther : Match :=
  ⟨[.appFn, .appArg, .appArg], number (constantly (.const (.simple "t") [])),
    [some (constantly (.const (.simple "t") []))]⟩

/-- The proof of the rule at the second function. -/
def instanceProof (x : FVarId) : Expr := .mkApp (.const (.simple "r") []) [constantly (.fvar x)]

/-- What the rule states of the second function. -/
def instanceType (x : FVarId) : Expr :=
  .mkEq .one nat (number (constantly (.fvar x))) (.const (.simple "c") [])

/-- A term whose type is a universe is a type. -/
theorem isType_of_runFresh {env : Environment} {Γ : LocalContext} {e : Expr} {l : Level}
    (h : (env.inferType 8 Γ e).runFresh = some (.ok (.sort l))) : env.IsType Γ e := by
  obtain ⟨t, ht⟩ := CheckM.runFresh_eq_ok.mp h
  exact ⟨8, _, _, t, l, ht, rfl⟩

theorem isType_context {x : FVarId}
    (hstring : (Enumeration.env.inferType 8 (context x) (.const Vocabulary.string [])).runFresh =
      some (.ok (.sort .one)))
    (hhost : (Enumeration.env.inferType 8 (context x) (host x)).runFresh = some (.ok .prop)) :
    ∀ entry ∈ (context x).entries, Enumeration.env.IsType (context x) entry.type := by
  intro entry hentry
  rcases List.mem_cons.mp hentry with rfl | hentry
  · exact isType_of_runFresh hhost
  · obtain rfl := List.mem_singleton.mp hentry
    exact isType_of_runFresh hstring

theorem extendsPrelude : Enumeration.env.ExtendsPrelude := by
  have hdeclared : Environment.declareAll ⟨Prelude.constants⟩ 50
      (Enumeration.env.constants.drop Prelude.constants.length) =
        some (Enumeration.env, .ok ()) := by rfl
  exact Environment.of_declareAll .declare Environment.extendsPrelude_prelude hdeclared

theorem plain : Enumeration.env.Plain where
  checked := extendsPrelude.checked
  fvarFree := Environment.fvarFree_prelude_append (by decide)
  iff := by
    rintro k ⟨info, hinfo, rfl⟩
    obtain rfl := Option.some.inj hinfo
    rfl

theorem hasContext : (start ⟨0⟩).HasContext (goal ⟨0⟩) (context ⟨0⟩) where
  context := by rfl
  types := fun _ _ entry hentry => isType_context (by decide +kernel) (by decide +kernel) entry
    (List.mem_of_find?_eq_some hentry)
  outer := by
    unfold LocalContext.FVarsIn
    decide
  hyps := by decide

end MatchedProofs

open MatchedProofs Enumeration in
/-- The proof of the rule at the second function is one of what the rule states of
it, if the hypothesis is a variable of the proof. -/
theorem matched_proof_of_function :
    ∃ k T, (MatchedProofs.start ⟨0⟩).inferType k (goal ⟨0⟩) (instanceProof ⟨0⟩) = some (.ok T) ∧
      T.eqModMData (instanceType ⟨0⟩) = true := by
  have hlimits : (instanceProof ⟨0⟩).WithinLimits :=
    .of_letFree (by decide) (by decide) (by decide) (by decide)
  have hfound : (rule.findMatches ⟨env, context ⟨0⟩, 8⟩ (host ⟨0⟩) none).run'
      Checker.firstFresh = some [farther, nearer ⟨0⟩] := by decide +kernel
  have hrule : ((MatchedProofs.start ⟨0⟩).elaborateRule 8 (goal ⟨0⟩) (.ofText "r")).run =
      some (.ok rule) := QueryM.run_eq_ok_of_toOption (by decide +kernel)
  have htype : (MatchedProofs.start ⟨0⟩).inferType 8 (goal ⟨0⟩) rule.proof = some (.ok
      (.pi .default functions (.mkEq .one nat (number (.bvar 0)) (.const (.simple "c") [])))) := by
    decide +kernel
  have hvals : (nearer ⟨0⟩).subst = [constantly (.fvar ⟨0⟩)].map some := rfl
  obtain ⟨k, T, -, hT, hstate⟩ := ProofState.matched_proof_typed plain hasContext rfl hrule htype
    (by decide) (by decide) UInt64.le_rfl (by decide +kernel) hfound (by simp) hvals
    hlimits.nesting hlimits.fits
  exact ⟨k, T, hstate (by decide +kernel), hT⟩

/-- Whether the proofs of all matches of rules that are read from texts, in terms
that have types, have the types that the rules state, if the context of the goal
is made of types. -/
def ProofState.TypesMatches (st : ProofState) (g : Goal) : Prop :=
  ∀ (Γ : LocalContext) (fuel : Nat) (text : String) (r : Rule) (host T : Expr)
    (found : List Match) (m : Match) (vals : List Expr),
    st.localContext? g = some Γ → (∀ entry ∈ Γ.entries, st.env.IsType Γ entry.type) →
    (st.elaborateRule fuel g (.ofText text)).run = some (.ok r) → st.env.Infers Γ host T →
    (r.findMatches ⟨st.env, Γ, fuel⟩ host none).runFresh = some found → m ∈ found →
    m.subst = vals.map some →
      ∃ T, st.env.Infers Γ (.mkApp r.proof vals) T ∧
        T.eqModMData (r.statement.instantiateRev vals).toExpr = true

namespace MatchedProofs

open Enumeration (env nat functions rule host nearer constantly)

/-- A proposition. -/
def proposition : Expr := .const (.simple "P") []

/-- An equivalence with a universe parameter, a proposition, and a proof that the
proposition is equivalent to itself. -/
def ownIff : Environment :=
  ⟨[⟨Vocabulary.iff, [.simple "u"], .pi .default .prop (.pi .default .prop .prop), none⟩,
    ⟨.simple "P", [], .prop, none⟩,
    ⟨.simple "h", [], .mkApp (.const Vocabulary.iff [.one]) [proposition, proposition], none⟩]⟩

/-- The proof as a rule. -/
def ownRule : Rule :=
  ⟨.const (.simple "h") [], [], ⟨.iff, .one, .prop, proposition, proposition⟩, false, "h"⟩

def ownGoal : Goal := ⟨⟨0⟩, proposition, []⟩

def ownContext : LocalContext :=
  .push .empty (MetaId.toFVar ⟨0⟩) (.ofString "?m0") proposition

/-- The prelude with a proposition and a proof of it, a number of each proof, and
the rule that this number is always zero. -/
def numbered : Environment := ⟨Prelude.constants ++
  [⟨.simple "P", [], .prop, none⟩, ⟨.simple "p", [], proposition, none⟩,
    ⟨.simple "M", [], .arrow proposition nat, none⟩,
    ⟨.simple "m", [], .pi .default proposition (.mkEq .one nat
      (.app (.const (.simple "M") []) (.bvar 0)) (.const Vocabulary.natZero [])), none⟩]⟩

/-- What the rule states of a proof. -/
def ofProof (e : Expr) : Statement :=
  ⟨.eq, .one, nat, .app (.const (.simple "M") []) e, .const Vocabulary.natZero []⟩

/-- The rule at a hypothesis that is the first metavariable, the value of which is
the proof. -/
def atHole : Rule :=
  ⟨.app (.const (.simple "m") []) (MetaId.toExpr ⟨0⟩), [],
    ofProof (.const (.simple "p") []), false, "m h"⟩

def hole : Hypothesis := ⟨MetaId.toFVar ⟨0⟩, "h", proposition, none⟩

def filledGoal : Goal := ⟨⟨1⟩, proposition, [hole]⟩

/-- The proposition was proved, and is to be proved once more. -/
def filled : ProofState where
  env := numbered
  goals := [filledGoal]
  metas := ⟨[⟨proposition, some (.const (.simple "p") [])⟩, ⟨proposition, none⟩]⟩
  nextFVar := hole.fvar.id + 1
  hypValues := []

def filledContext : LocalContext :=
  ((LocalContext.empty.push hole.fvar (.ofString "h") proposition).push
    (MetaId.toFVar ⟨0⟩) (.ofString "?m0") proposition).push
    (MetaId.toFVar ⟨1⟩) (.ofString "?m1") proposition

/-- A search that has drawn the hypothesis for the first function takes it for what
it is in the second one, while a checker that has drawn nothing yet draws it for
the second one and takes it for a number. -/
theorem not_typesMatches_captured :
    ¬ (start ⟨Checker.firstFresh⟩).TypesMatches (goal ⟨Checker.firstFresh⟩) := by
  intro h
  obtain ⟨T, hT, -⟩ := h (context ⟨Checker.firstFresh⟩) 8 "r" rule (host ⟨Checker.firstFresh⟩)
    .prop [farther, nearer ⟨Checker.firstFresh⟩] (nearer ⟨Checker.firstFresh⟩)
    [constantly (.fvar ⟨Checker.firstFresh⟩)] (by rfl)
    (isType_context (by decide +kernel) (by decide +kernel))
    (QueryM.run_eq_ok_of_toOption (by decide +kernel)) ⟨8, by decide +kernel⟩ (by decide +kernel)
    (by simp) rfl
  have herror : (env.inferType 8 (context ⟨Checker.firstFresh⟩)
      (instanceProof ⟨Checker.firstFresh⟩)).runFresh =
        some (.error (.typeMismatch functions (.arrow nat nat))) := by decide +kernel
  exact Environment.not_infers_of_error herror hT

/-- The statement of a rule loses the universe of its equivalence. -/
theorem not_typesMatches_ownIff :
    ¬ (ProofState.start ownIff proposition []).TypesMatches ownGoal := by
  intro h
  have htypes : ∀ entry ∈ ownContext.entries, ownIff.IsType ownContext entry.type := by
    intro entry hentry
    obtain rfl := List.mem_singleton.mp hentry
    exact isType_of_runFresh (l := .zero) (by decide +kernel)
  obtain ⟨T, ⟨n, hT⟩, hstates⟩ := h ownContext 8 "h" ownRule proposition .prop
    [⟨[], proposition, []⟩] _ [] (by rfl) htypes
    (QueryM.run_eq_ok_of_toOption (by decide +kernel)) ⟨8, by decide +kernel⟩ (by decide +kernel)
    List.mem_cons_self rfl
  rcases n with _ | n
  · cases hT
  · obtain rfl := Except.ok.inj (Option.some.inj hT)
    exact absurd hstates (by decide)

/-- The statement of a rule has the value of the metavariable, and its proof has
the hypothesis. -/
theorem not_typesMatches_filled : ¬ filled.TypesMatches filledGoal := by
  intro h
  have hproposition : numbered.IsType filledContext proposition :=
    isType_of_runFresh (l := .zero) (by decide +kernel)
  have htypes : ∀ entry ∈ filledContext.entries, numbered.IsType filledContext entry.type := by
    intro entry hentry
    have htype : ∀ entry ∈ filledContext.entries, entry.type = proposition := by decide
    exact htype entry hentry ▸ hproposition
  obtain ⟨T, hT, hstates⟩ := h filledContext 8 "m h" atHole
    (.app (.const (.simple "M") []) (.const (.simple "p") [])) nat
    [⟨[], .app (.const (.simple "M") []) (.const (.simple "p") []), []⟩] _ [] (by rfl) htypes
    (QueryM.run_eq_ok_of_toOption (by decide +kernel)) ⟨8, by decide +kernel⟩ (by decide +kernel)
    List.mem_cons_self rfl
  -- the checker is given the proof as it is, with the hole
  have hgiven : numbered.Infers filledContext (.mkApp atHole.proof [])
      (ofProof (MetaId.toExpr ⟨0⟩)).toExpr := ⟨8, by decide +kernel⟩
  obtain rfl := hT.det hgiven
  exact absurd hstates (by decide)

end MatchedProofs

open MatchedProofs in
/-- The proof of a match need not have the type that the rule states, not even over
a checked environment, if a hypothesis is one of the variables that the checker
draws, or a metavariable that has a value, or if equivalences are declared with a
universe parameter. -/
theorem matched_proof_untyped :
    (Enumeration.env.ExtendsPrelude ∧ ¬ (MatchedProofs.start ⟨Checker.firstFresh⟩).TypesMatches
      (goal ⟨Checker.firstFresh⟩)) ∧
    (numbered.ExtendsPrelude ∧ ¬ filled.TypesMatches filledGoal) ∧
    ownIff.Checked ∧ ¬ (ProofState.start ownIff proposition []).TypesMatches ownGoal := by
  refine ⟨⟨extendsPrelude, not_typesMatches_captured⟩, ⟨?_, not_typesMatches_filled⟩, ?_,
    not_typesMatches_ownIff⟩
  · have hdeclared : Environment.declareAll ⟨Prelude.constants⟩ 50
        (numbered.constants.drop Prelude.constants.length) = some (numbered, .ok ()) := by rfl
    exact Environment.of_declareAll .declare Environment.extendsPrelude_prelude hdeclared
  · have hdeclared : Environment.empty.declareAll 50 ownIff.constants = some (ownIff, .ok ()) := by
      rfl
    exact Environment.of_declareAll .declare .empty hdeclared

end Pinpoint
