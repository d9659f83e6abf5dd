/-
Types of the equations from which a rewrite is put together.

A function whose type quantifies over variables is applied to arguments of the
types of these variables; the constants of the prelude are such functions, and
so is the proof of a rule.  `Equation.Typed` says that all parts of an equation
have the types that they should have.  Every equation of a rewrite is typed
then: the instance of a rule, turned from pattern to replacement, and the
equations to which it is lifted, as far as the functions through which they are
lifted have types.  The casts along such equations are proofs.

* `HasType.mkApp`, `HasType.argsTyped` — applications put together and taken
  apart;
* `Rule.typed_equationAt` — instances of rules;
* `Equation.Typed.under`, `Statement.Typed.motive` — equations lifted through
  functions, and the function that a side of a statement is lifted through;
* `Equation.Typed.castGoal`, `Equation.Typed.castHyp`,
  `Statement.Typed.reflProof` — the proofs.
-/
import Pinpoint.Proofs.Constants
import Pinpoint.Proofs.Equations
import Pinpoint.Proofs.Statements
import Pinpoint.Proofs.TypedInference
import Pinpoint.Proofs.Unfolding
import Pinpoint.Rewrite.Reflexivity

namespace Pinpoint

theorem Expr.span_stripMData (e : Expr) : e.stripMData.span = e.span := by
  induction e with
  | mdata m e ih => exact ih
  | _ => rfl

/-! ### Many arguments -/

/-- The type that quantifies over variables of the given types, the outermost
one first. -/
def Term.pis (types : List Term) (B : Term) : Term := types.foldr .pi B

theorem Expr.term_telescope (e : Expr) :
    e.term = Term.pis (e.telescope.1.map term) e.telescope.2.term := by
  induction e with
  | mdata m e ih => exact ih
  | pi info dom body _ ihb => exact congrArg (Term.pi dom.term) ihb
  | _ => rfl

section
variable {S : Signature} {Γ : Locals} {Δ types earlier args vals : List Term} {f A B T a : Term}

/-- The value of one more variable. -/
theorem Term.inst_subst_instances (B a : Term) (vals : List Term) :
    (B.subst (Expr.instances vals).up).inst a = B.subst (Expr.instances (vals ++ [a])) := by
  rw [inst, subst_subst]
  congr 1
  refine Subst.ext' (fun i => ?_) fun x => rfl
  cases i with
  | zero => simp [Subst.comp, Subst.up, Subst.single, Expr.instances, subst]
  | succ i =>
    show (((Expr.instances vals).bound i).lift 1).inst a = _
    rw [Term.inst_lift]
    simp [Expr.instances]

theorem Term.subst_instances_nil (B : Term) : B.subst (Expr.instances []) = B := by
  have hid : Expr.instances [] = .id := Subst.ext' (fun i => rfl) fun x => rfl
  rw [hid, subst_id]

/-- Whether arguments have the types of variables, each at the arguments before
it. -/
def ArgsTyped (S : Signature) (Γ : Locals) (Δ : List Term) :
    List Term → List Term → List Term → Prop
  | _, [], [] => True
  | earlier, A :: types, a :: args =>
    HasType S Γ Δ a (A.subst (Expr.instances earlier)) ∧
      ArgsTyped S Γ Δ (earlier ++ [a]) types args
  | _, _, _ => False

/-- A function applied to arguments of the types of its variables. -/
theorem HasType.mkApp (hf : HasType S Γ Δ f ((Term.pis types B).subst (Expr.instances earlier)))
    (hargs : ArgsTyped S Γ Δ earlier types args) :
    HasType S Γ Δ (args.foldl .app f) (B.subst (Expr.instances (earlier ++ args))) := by
  induction types generalizing f earlier args with
  | nil =>
    obtain _ | ⟨a, args⟩ := args
    · rwa [List.append_nil]
    · exact hargs.elim
  | cons A types ih =>
    obtain _ | ⟨a, args⟩ := args
    · exact hargs.elim
    · have hfa := HasType.app hf hargs.1
      rw [Term.inst_subst_instances] at hfa
      have h := ih hfa hargs.2
      rwa [List.append_assoc] at h

/-- What arguments have types that have universes leaves with. -/
theorem HasType.pis_universe {l : Level}
    (h : HasType S Γ Δ ((Term.pis types B).subst (Expr.instances earlier)) (.sort l))
    (hargs : ArgsTyped S Γ Δ earlier types args) :
    ∃ l', HasType S Γ Δ (B.subst (Expr.instances (earlier ++ args))) (.sort l') := by
  induction types generalizing earlier args l with
  | nil =>
    obtain _ | ⟨a, args⟩ := args
    · rw [List.append_nil]
      exact ⟨l, h⟩
    · exact hargs.elim
  | cons A types ih =>
    obtain _ | ⟨a, args⟩ := args
    · exact hargs.elim
    · obtain ⟨l₁, l₂, -, hbody, -⟩ := h.generation
      have hrest := hbody.inst hargs.1
      rw [Term.inst_subst_instances] at hrest
      have h := ih (l := l₂) hrest hargs.2
      rwa [List.append_assoc] at h

/-- The function of an application that has a type has one. -/
theorem HasType.head (h : HasType S Γ Δ (args.foldl .app f) T) : ∃ F, HasType S Γ Δ f F := by
  induction args generalizing f with
  | nil => exact ⟨T, h⟩
  | cons a args ih =>
    obtain ⟨F, hF⟩ := ih h
    obtain ⟨A, B, hf, -, -⟩ := hF.generation
    exact ⟨_, hf⟩

/-- The arguments of an application that has a type have the types of the
variables. -/
theorem HasType.argsTyped
    (hf : HasType S Γ Δ f ((Term.pis types B).subst (Expr.instances earlier)))
    (h : HasType S Γ Δ (args.foldl .app f) T) (hlen : types.length = args.length) :
    ArgsTyped S Γ Δ earlier types args := by
  induction types generalizing f earlier args with
  | nil =>
    rw [List.eq_nil_of_length_eq_zero hlen.symm]
    trivial
  | cons A types ih =>
    obtain _ | ⟨a, args⟩ := args
    · cases hlen
    · obtain ⟨F, hF⟩ := HasType.head (f := .app f a) h
      obtain ⟨A', B', hf', ha, -⟩ := hF.generation
      have ha := ha.conv (hf'.unique hf).pi_inj.1
      have hfa := HasType.app hf ha
      rw [Term.inst_subst_instances] at hfa
      exact ⟨ha, ih hfa h (Nat.succ.inj hlen)⟩

end

/-! ### The constants of the prelude -/

/-- An equation. -/
def Term.eq (l : Level) (α a b : Term) : Term := [α, a, b].foldl .app (.const Vocabulary.eq [l])

/-- An equivalence. -/
def Term.iff (a b : Term) : Term := [a, b].foldl .app (.const Vocabulary.iff [])

section
variable {env : Environment} (henv : env.Ground) (hprelude : env.ExtendsPrelude) {Γ : Locals}
  {Δ args : List Term} {l m : Level} {α β a b f h T : Term}
include hprelude

/-- The type of a constant of the prelude. -/
theorem hasType_prelude (c : Name) (ls : List Level) (X : Expr)
    (hX : (Environment.find? ⟨Prelude.constants⟩ c).map (·.instantiateType ls) = some (.ok X)) :
    HasType henv.signature Γ Δ (.const c (ls.map Level.simplify))
      ((Term.pis (X.telescope.1.map Expr.term) X.telescope.2.term).subst (Expr.instances [])) := by
  obtain ⟨info, hinfo, hX⟩ := Option.map_eq_some_iff.mp hX
  rw [← Expr.term_telescope, Term.subst_instances_nil]
  exact .const (Environment.typeTerm?_of_instantiateType (hprelude.find?_eq hinfo) hX)

/-- A constant of the prelude with its arguments. -/
theorem hasType_prelude_mkApp (c : Name) (ls : List Level) (X : Expr)
    (hX : (Environment.find? ⟨Prelude.constants⟩ c).map (·.instantiateType ls) = some (.ok X))
    (hargs : ArgsTyped henv.signature Γ Δ [] (X.telescope.1.map Expr.term) args) :
    HasType henv.signature Γ Δ (args.foldl .app (.const c (ls.map Level.simplify)))
      (X.telescope.2.term.subst (Expr.instances args)) :=
  (hasType_prelude henv hprelude c ls X hX).mkApp hargs

theorem hasType_eq (hα : HasType henv.signature Γ Δ α (.sort l.simplify))
    (ha : HasType henv.signature Γ Δ a α) (hb : HasType henv.signature Γ Δ b α) :
    HasType henv.signature Γ Δ (.eq l.simplify α a b) (.sort .zero) :=
  hasType_prelude_mkApp henv hprelude Vocabulary.eq [l] (Prelude.eqType l) rfl
    ⟨hα, ha, hb, trivial⟩

theorem hasType_eqRefl (hα : HasType henv.signature Γ Δ α (.sort l.simplify))
    (ha : HasType henv.signature Γ Δ a α) :
    HasType henv.signature Γ Δ ([α, a].foldl .app (.const Vocabulary.eqRefl [l.simplify]))
      (.eq l.simplify α a a) :=
  hasType_prelude_mkApp henv hprelude Vocabulary.eqRefl [l] (Prelude.eqReflType l) rfl
    ⟨hα, ha, trivial⟩

theorem hasType_eqSymm (hα : HasType henv.signature Γ Δ α (.sort l.simplify))
    (ha : HasType henv.signature Γ Δ a α) (hb : HasType henv.signature Γ Δ b α)
    (hh : HasType henv.signature Γ Δ h (.eq l.simplify α a b)) :
    HasType henv.signature Γ Δ
      ([α, a, b, h].foldl .app (.const Vocabulary.eqSymm [l.simplify])) (.eq l.simplify α b a) :=
  hasType_prelude_mkApp henv hprelude Vocabulary.eqSymm [l] (Prelude.eqSymmType l) rfl
    ⟨hα, ha, hb, hh, trivial⟩

theorem hasType_eqMpr (ha : HasType henv.signature Γ Δ a (.sort .zero))
    (hb : HasType henv.signature Γ Δ b (.sort .zero))
    (hh : HasType henv.signature Γ Δ h (.eq (.succ .zero) (.sort .zero) a b))
    (hf : HasType henv.signature Γ Δ f b) :
    HasType henv.signature Γ Δ ([a, b, h, f].foldl .app (.const Vocabulary.eqMpr [.zero])) a :=
  hasType_prelude_mkApp henv hprelude Vocabulary.eqMpr [.zero] (Prelude.eqMprType .zero) rfl
    ⟨ha, hb, hh, hf, trivial⟩

theorem hasType_eqMp (ha : HasType henv.signature Γ Δ a (.sort .zero))
    (hb : HasType henv.signature Γ Δ b (.sort .zero))
    (hh : HasType henv.signature Γ Δ h (.eq (.succ .zero) (.sort .zero) a b))
    (hf : HasType henv.signature Γ Δ f a) :
    HasType henv.signature Γ Δ ([a, b, h, f].foldl .app (.const Vocabulary.eqMp [.zero])) b :=
  hasType_prelude_mkApp henv hprelude Vocabulary.eqMp [.zero] (Prelude.eqMpType .zero) rfl
    ⟨ha, hb, hh, hf, trivial⟩

theorem hasType_congrArg (hα : HasType henv.signature Γ Δ α (.sort l.simplify))
    (hβ : HasType henv.signature Γ Δ β (.sort m.simplify))
    (ha : HasType henv.signature Γ Δ a α) (hb : HasType henv.signature Γ Δ b α)
    (hf : HasType henv.signature Γ Δ f (.pi α (β.lift 1)))
    (hh : HasType henv.signature Γ Δ h (.eq l.simplify α a b)) :
    HasType henv.signature Γ Δ
      ([α, β, a, b, f, h].foldl .app (.const Vocabulary.congrArg [l.simplify, m.simplify]))
      (.eq m.simplify β (.app f a) (.app f b)) :=
  hasType_prelude_mkApp henv hprelude Vocabulary.congrArg [l, m] (Prelude.congrArgType l m) rfl
    ⟨hα, hβ, ha, hb, hf, hh, trivial⟩

theorem hasType_iff (ha : HasType henv.signature Γ Δ a (.sort .zero))
    (hb : HasType henv.signature Γ Δ b (.sort .zero)) :
    HasType henv.signature Γ Δ (.iff a b) (.sort .zero) :=
  hasType_prelude_mkApp henv hprelude Vocabulary.iff [] Prelude.iffType rfl ⟨ha, hb, trivial⟩

theorem hasType_iffRefl (ha : HasType henv.signature Γ Δ a (.sort .zero)) :
    HasType henv.signature Γ Δ ([a].foldl .app (.const Vocabulary.iffRefl [])) (.iff a a) :=
  hasType_prelude_mkApp henv hprelude Vocabulary.iffRefl [] Prelude.iffReflType rfl ⟨ha, trivial⟩

theorem hasType_iffSymm (ha : HasType henv.signature Γ Δ a (.sort .zero))
    (hb : HasType henv.signature Γ Δ b (.sort .zero))
    (hh : HasType henv.signature Γ Δ h (.iff a b)) :
    HasType henv.signature Γ Δ ([a, b, h].foldl .app (.const Vocabulary.iffSymm [])) (.iff b a) :=
  hasType_prelude_mkApp henv hprelude Vocabulary.iffSymm [] Prelude.iffSymmType rfl
    ⟨ha, hb, hh, trivial⟩

theorem hasType_propext (ha : HasType henv.signature Γ Δ a (.sort .zero))
    (hb : HasType henv.signature Γ Δ b (.sort .zero))
    (hh : HasType henv.signature Γ Δ h (.iff a b)) :
    HasType henv.signature Γ Δ ([a, b, h].foldl .app (.const Vocabulary.propext []))
      (.eq (.succ .zero) (.sort .zero) a b) :=
  hasType_prelude_mkApp henv hprelude Vocabulary.propext [] Prelude.propextType rfl
    ⟨ha, hb, hh, trivial⟩

/-- The parts of an equation that has a type. -/
theorem HasType.of_eq (h : HasType henv.signature Γ Δ (.eq l.simplify α a b) T) :
    HasType henv.signature Γ Δ α (.sort l.simplify) ∧ HasType henv.signature Γ Δ a α ∧
      HasType henv.signature Γ Δ b α := by
  obtain ⟨hα, ha, hb, -⟩ :=
    (hasType_prelude henv hprelude Vocabulary.eq [l] (Prelude.eqType l) rfl).argsTyped h rfl
  exact ⟨hα, ha, hb⟩

/-- The parts of an equivalence that has a type; it is written without universe
arguments. -/
theorem HasType.of_iff {ls : List Level}
    (h : HasType henv.signature Γ Δ ([a, b].foldl .app (.const Vocabulary.iff ls)) T) :
    ls = [] ∧ HasType henv.signature Γ Δ a (.sort .zero) ∧
      HasType henv.signature Γ Δ b (.sort .zero) := by
  obtain ⟨F, hF⟩ := h.head
  obtain ⟨A, hA, -⟩ := hF.generation
  obtain ⟨info, hinfo, hlen, -⟩ := Environment.typeTerm?_eq_some.mp hA
  rw [hprelude.find?_eq (n := Vocabulary.iff) (c := ⟨Vocabulary.iff, [], Prelude.iffType, none⟩) rfl]
    at hinfo
  obtain rfl := Option.some.inj hinfo
  obtain rfl := List.eq_nil_of_length_eq_zero hlen
  obtain ⟨ha, hb, -⟩ :=
    (hasType_prelude henv hprelude Vocabulary.iff [] Prelude.iffType rfl).argsTyped h rfl
  exact ⟨rfl, ha, hb⟩

end

/-! ### Statements -/

/-- What a statement is in the calculus. -/
theorem Expr.term_statement? {e : Expr} {s : Statement} (h : e.statement? = some s) :
    (s.relation = .eq ∧
        e.term = .eq s.level.simplify s.carrier.term s.lhs.term s.rhs.term) ∨
      (s.relation = .iff ∧ s.level = .one ∧ s.carrier = .prop ∧
        ∃ ls, e.term = [s.lhs.term, s.rhs.term].foldl .app (.const Vocabulary.iff ls)) := by
  rw [← term_stripMData]
  rcases statement?_eq_some h with ⟨hrel, he⟩ | ⟨hrel, hlevel, hcarrier, ls, he⟩
  · refine .inl ⟨hrel, ?_⟩
    rw [he, Statement.toExpr, Statement.rebuild, hrel]
    rfl
  · refine .inr ⟨hrel, hlevel, hcarrier, ls.map Level.simplify, ?_⟩
    rw [he]
    rfl

theorem Statement.narrow_of_statement? {e : Expr} {s : Statement} (h : e.statement? = some s)
    (he : e.Narrow) : s.carrier.Narrow ∧ s.lhs.Narrow ∧ s.rhs.Narrow := by
  have hstrip : e.stripMData.Narrow := by
    rw [Expr.Narrow, Expr.span_stripMData]
    exact he
  rcases Expr.statement?_eq_some h with ⟨hrel, he⟩ | ⟨-, -, hcarrier, ls, he⟩
  · rw [he, Statement.toExpr, Statement.rebuild, hrel] at hstrip
    have hparts := (Environment.narrow_mkApp.mp hstrip).2
    exact ⟨hparts _ (by simp), hparts _ (by simp), hparts _ (by simp)⟩
  · rw [he] at hstrip
    have hparts := (Environment.narrow_mkApp.mp hstrip).2
    refine ⟨?_, hparts _ (by simp), hparts _ (by simp)⟩
    rw [hcarrier]
    exact Nat.two_pow_pos 31

theorem Statement.narrow_withSide {s : Statement} {e : Expr} (hc : s.carrier.Narrow)
    (hl : s.lhs.Narrow) (hr : s.rhs.Narrow) (he : e.Narrow) (side : Side) :
    (s.withSide e side).Narrow := by
  have hrebuild : ∀ {a b : Expr}, a.Narrow → b.Narrow → (s.rebuild a b).Narrow := by
    intro a b ha hb
    unfold Statement.rebuild
    split <;> refine Environment.narrow_mkApp.mpr ⟨Nat.two_pow_pos 31, ?_⟩
    · simpa using ⟨hc, ha, hb⟩
    · simpa using ⟨ha, hb⟩
  cases side
  · exact hrebuild he hr
  · exact hrebuild hl he

/-- The statement with a function applied to its terms. -/
def Statement.mapTerms (f : Expr → Expr) (s : Statement) : Statement :=
  { s with carrier := f s.carrier, lhs := f s.lhs, rhs := f s.rhs }

/-- Whether the sides of a statement have the type that it says they have. -/
structure Statement.Typed (S : Signature) (Γ : Locals) (s : Statement) : Prop where
  carrier : HasType S Γ [] s.carrier.term (.sort s.level.simplify)
  lhs : HasType S Γ [] s.lhs.term s.carrier.term
  rhs : HasType S Γ [] s.rhs.term s.carrier.term
  prop : s.relation = .iff → s.carrier = .prop

section
variable {env : Environment} {henv : env.Ground} {Γ : Locals} {Δ : List Term} {l : Level}
  {α a b T : Term} {e target v : Expr} {vals : List Expr} {s : Statement} {side : Side}

/-- The statement that has a type at given values has typed sides. -/
theorem typed_of_statement? (hprelude : env.ExtendsPrelude) (hs : e.statement? = some s)
    (he : e.Narrow) (hvals : ∀ v ∈ vals, v.Narrow) (hlen : vals.length < 2 ^ 31)
    (h : HasType henv.signature Γ [] (e.term.subst (Expr.instances (vals.map Expr.term))) T) :
    (s.mapTerms (·.instantiateRev vals)).Typed henv.signature Γ ∧
      e.term.subst (Expr.instances (vals.map Expr.term)) =
        (s.mapTerms (·.instantiateRev vals)).toExpr.term := by
  obtain ⟨hc, hl, hr⟩ := Statement.narrow_of_statement? hs he
  have hinst : ∀ {e : Expr}, e.Narrow →
      e.term.subst (Expr.instances (vals.map Expr.term)) = (e.instantiateRev vals).term :=
    fun he => (Expr.term_instantiateRev he hvals hlen).symm
  rcases Expr.term_statement? hs with ⟨hrel, hterm⟩ | ⟨hrel, hlevel, hcarrier, ls, hterm⟩
  · -- An equation is a spine of a constant whose type is that of the prelude.
    have hsubst : e.term.subst (Expr.instances (vals.map Expr.term)) = .eq s.level.simplify
        (s.carrier.instantiateRev vals).term (s.lhs.instantiateRev vals).term
        (s.rhs.instantiateRev vals).term := by
      rw [hterm, ← hinst hc, ← hinst hl, ← hinst hr]
      rfl
    rw [hsubst] at h ⊢
    obtain ⟨hα, ha, hb⟩ := h.of_eq henv hprelude
    refine ⟨⟨hα, ha, hb, fun hiff => ?_⟩, ?_⟩
    · cases hrel.symm.trans hiff
    · rw [Statement.toExpr, Statement.rebuild, show (s.mapTerms _).relation = s.relation from rfl,
        hrel]
      rfl
  · have hsubst : e.term.subst (Expr.instances (vals.map Expr.term)) =
        [(s.lhs.instantiateRev vals).term, (s.rhs.instantiateRev vals).term].foldl .app
          (.const Vocabulary.iff ls) := by
      rw [hterm, ← hinst hl, ← hinst hr]
      rfl
    rw [hsubst] at h ⊢
    -- The equivalence of the prelude has no universe parameter and relates propositions.
    obtain ⟨rfl, ha, hb⟩ := h.of_iff henv hprelude
    have hprop : s.carrier.instantiateRev vals = .prop := by rw [hcarrier]; rfl
    refine ⟨⟨?_, ?_, ?_, fun _ => hprop⟩, ?_⟩
    · show HasType henv.signature Γ [] (s.carrier.instantiateRev vals).term (.sort s.level.simplify)
      rw [hprop, hlevel]
      exact .sort [] .zero
    · show HasType henv.signature Γ [] _ (s.carrier.instantiateRev vals).term
      rw [hprop]
      exact ha
    · show HasType henv.signature Γ [] _ (s.carrier.instantiateRev vals).term
      rw [hprop]
      exact hb
    · rw [Statement.toExpr, Statement.rebuild, show (s.mapTerms _).relation = s.relation from rfl,
        hrel]
      rfl

/-- A statement that has a type has typed sides. -/
theorem Statement.typed (hprelude : env.ExtendsPrelude) (hs : target.statement? = some s)
    (htarget : target.Narrow) (h : HasType henv.signature Γ [] target.term T) :
    s.Typed henv.signature Γ ∧ target.term = s.toExpr.term := by
  have hmap : (s.mapTerms (·.instantiateRev [])) = s := by
    simp only [mapTerms, Expr.instantiateRev_nil]
  have hnil : target.term.subst (Expr.instances (([] : List Expr).map Expr.term)) = target.term :=
    Term.subst_instances_nil target.term
  rw [← hnil] at h ⊢
  rw [← hmap]
  exact typed_of_statement? hprelude hs htarget (List.forall_mem_nil _) (Nat.two_pow_pos 31) h

namespace Statement.Typed

variable {S : Signature}

theorem hasType_side (hs : s.Typed S Γ) (side : Side) :
    HasType S Γ [] (s.side side).term s.carrier.term := by
  cases side
  · exact hs.lhs
  · exact hs.rhs

/-- A relation between terms of the type of the sides is a proposition. -/
theorem rebuild (hprelude : env.ExtendsPrelude) (hs : s.Typed henv.signature Γ) {x y : Expr}
    (hx : HasType henv.signature Γ Δ x.term s.carrier.term)
    (hy : HasType henv.signature Γ Δ y.term s.carrier.term) :
    HasType henv.signature Γ Δ (s.rebuild x y).term (.sort .zero) := by
  unfold Statement.rebuild
  split
  · exact hasType_eq henv hprelude (hs.carrier.weaken fun h => h) hx hy
  · rename_i hrel
    rw [hs.prop hrel] at hx hy
    exact hasType_iff henv hprelude hx hy

/-- The function that a side of a statement is lifted through. -/
theorem motive (hprelude : env.ExtendsPrelude) (hs : s.Typed henv.signature Γ) (side : Side) :
    HasType henv.signature Γ [] (.lam s.carrier.term (s.withSide (.bvar 0) side).term)
      (.pi s.carrier.term (.sort .zero)) := by
  have hvar : HasType henv.signature Γ [s.carrier.term] (Expr.bvar 0).term s.carrier.term := by
    have h := HasType.bvar (S := henv.signature) (Γ := Γ) (Δ := [s.carrier.term]) (i := 0) rfl
    rwa [Term.lift, hs.carrier.closed.rename] at h
  refine .lam hs.carrier ?_
  cases side
  · exact hs.rebuild hprelude hvar (hs.rhs.weaken fun h => h)
  · exact hs.rebuild hprelude (hs.lhs.weaken fun h => h) hvar

/-- The body of that function at a term is the statement with that side. -/
theorem term_inst_withSide (hs : s.Typed S Γ) (v : Expr) (side : Side) :
    (s.withSide (.bvar 0) side).term.inst v.term = (s.withSide v side).term := by
  have hself : ∀ {e : Term}, e.Closed → e.subst (.single v.term) = e :=
    fun he => he.subst_eq_self fun _ => rfl
  have hc := hself hs.carrier.closed
  have hl := hself hs.lhs.closed
  have hr := hself hs.rhs.closed
  cases side <;> cases hrel : s.relation <;>
    simp only [withSide, Statement.rebuild, hrel, Term.inst, Expr.mkEq, Expr.mkIff, Expr.term_mkApp,
      List.map_cons, List.map_nil, List.foldl_cons, List.foldl_nil, Term.subst, hc, hl, hr] <;> rfl

/-- A side is determined by the statement. -/
theorem side_inj {v w : Expr} (h : (s.withSide v side).term = (s.withSide w side).term) :
    v.term = w.term := by
  cases side <;> cases hrel : s.relation <;>
    simp only [withSide, Statement.rebuild, hrel, Expr.mkEq, Expr.mkIff, Expr.term_mkApp,
      List.map_cons, List.map_nil, List.foldl_cons, List.foldl_nil, Term.app.injEq] at h
  all_goals first | exact h.2 | exact h.1.2

/-- The proof that the left side of a statement is related to itself proves the
statement, if the sides are convertible. -/
theorem reflProof (hprelude : env.ExtendsPrelude) (hs : s.Typed henv.signature Γ)
    (hsides : Converts henv.signature.toDefinitions s.lhs.term s.rhs.term) {refl : Constant}
    (hrefl : env.find? s.relation.reflName = some refl) :
    HasType henv.signature Γ [] (s.reflProof refl).term s.toExpr.term := by
  unfold Statement.reflProof toExpr Statement.rebuild
  cases hrel : s.relation with
  | eq =>
    rw [hrel, Relation.reflName, hprelude.find?_eq (n := Vocabulary.eqRefl) rfl] at hrefl
    obtain rfl := Option.some.inj hrefl
    exact (hasType_eqRefl henv hprelude hs.carrier hs.lhs).conv (.app (.refl _) hsides)
  | iff =>
    have ha := hs.lhs
    rw [hs.prop hrel] at ha
    exact (hasType_iffRefl henv hprelude ha).conv (.app (.refl _) hsides)

end Statement.Typed

end

/-! ### Equations -/

/-- Whether the parts of an equation have the types that they should have. -/
structure Equation.Typed (S : Signature) (Γ : Locals) (eq : Equation) : Prop where
  carrier : HasType S Γ [] eq.carrier.term (.sort eq.level.simplify)
  lhs : HasType S Γ [] eq.lhs.term eq.carrier.term
  rhs : HasType S Γ [] eq.rhs.term eq.carrier.term
  proof : HasType S Γ [] eq.proof.term
    (.eq eq.level.simplify eq.carrier.term eq.lhs.term eq.rhs.term)

section
variable {env : Environment} {henv : env.Ground} (hprelude : env.ExtendsPrelude) {Γ : Locals}
  {r : Rule} {vals : List Expr} {eq : Equation} {new old : Expr}
include hprelude

/-- An instance of a rule, turned from pattern to replacement, is typed. -/
theorem Rule.typed_equationAt
    (hs : (r.statement.mapTerms (·.instantiateRev vals)).Typed henv.signature Γ)
    (hproof : HasType henv.signature Γ [] (Expr.mkApp r.proof vals).term
      (r.statement.mapTerms (·.instantiateRev vals)).toExpr.term) :
    (r.equationAt vals).Typed henv.signature Γ := by
  obtain ⟨hc, hl, hr, hprop⟩ := hs
  have hsort : HasType henv.signature Γ [] (Expr.prop).term (.sort Level.one.simplify) := .sort [] .zero
  unfold Rule.equationAt
  cases hrel : r.statement.relation with
  | eq =>
    rw [Statement.toExpr, Statement.rebuild, show (r.statement.mapTerms _).relation = _ from hrel]
      at hproof
    cases r.reversed with
    | false => exact ⟨hc, hl, hr, hproof⟩
    | true => exact ⟨hc, hr, hl, hasType_eqSymm henv hprelude hc hl hr hproof⟩
  | iff =>
    rw [Statement.toExpr, Statement.rebuild, show (r.statement.mapTerms _).relation = _ from hrel]
      at hproof
    rw [hprop hrel] at hl hr
    cases r.reversed with
    | false => exact ⟨hsort, hl, hr, hasType_propext henv hprelude hl hr hproof⟩
    | true =>
      have hflip := hasType_iffSymm henv hprelude hl hr hproof
      exact ⟨hsort, hr, hl, hasType_propext henv hprelude hr hl hflip⟩

namespace Equation.Typed

variable (heq : eq.Typed henv.signature Γ)
include heq

/-- An equation lifted through a function is typed. -/
theorem under {dom body codomain : Expr} {level : Level}
    (hcodomain : HasType henv.signature Γ [] codomain.term (.sort level.simplify))
    (hmotive : HasType henv.signature Γ [] (.lam dom.term body.term)
      (.pi eq.carrier.term codomain.term))
    (hbody : body.Narrow) (hlhs : eq.lhs.Narrow) (hrhs : eq.rhs.Narrow) :
    (eq.under dom body codomain level).Typed henv.signature Γ := by
  have hlift : codomain.term.lift 1 = codomain.term := hcodomain.closed.rename _
  have hself : ∀ v : Term, codomain.term.inst v = codomain.term :=
    fun v => hcodomain.closed.subst_eq_self fun _ => rfl
  obtain ⟨l, B, -, hb, hconv⟩ := hmotive.generation
  obtain ⟨hdom, hcod⟩ := hconv.pi_inj
  have hinst : ∀ {v : Expr}, v.Narrow → HasType henv.signature Γ [] v.term eq.carrier.term →
      HasType henv.signature Γ [] (body.instantiate v).term codomain.term := by
    intro v hv h
    rw [Expr.term_instantiate hbody hv]
    have hbv := (hb.inst (h.conv hdom.symm)).conv (hcod.inst (.refl _))
    rwa [hself] at hbv
  refine ⟨hcodomain, hinst hlhs heq.lhs, hinst hrhs heq.rhs, ?_⟩
  have hproof := hasType_congrArg henv hprelude heq.carrier hcodomain heq.lhs heq.rhs
    (by rw [hlift]; exact hmotive) heq.proof
  refine hproof.conv ((Converts.app (.app (.refl _) ?_)) ?_)
  · show Converts _ _ (body.instantiate eq.lhs).term
    rw [Expr.term_instantiate hbody hlhs]
    exact .beta _ _ _
  · show Converts _ _ (body.instantiate eq.rhs).term
    rw [Expr.term_instantiate hbody hrhs]
    exact .beta _ _ _

omit hprelude in
/-- An equation in the universe of propositions is one between propositions. -/
theorem of_isProp (hprop : eq.carrier.isProp) :
    HasType henv.signature Γ [] eq.lhs.term (.sort .zero) ∧
      HasType henv.signature Γ [] eq.rhs.term (.sort .zero) ∧
      HasType henv.signature Γ [] eq.proof.term
        (.eq (.succ .zero) (.sort .zero) eq.lhs.term eq.rhs.term) := by
  have hcarrier : eq.carrier.term = .sort .zero := by
    cases hc : eq.carrier with
    | sort l =>
      rw [hc, Expr.isProp] at hprop
      rw [Expr.term]
      cases hs : l.simplify <;> rw [hs] at hprop <;> first | rfl | cases hprop
    | _ => rw [hc] at hprop; cases hprop
  obtain ⟨hc, hl, hr, hproof⟩ := heq
  rw [hcarrier] at hc hl hr hproof
  rw [← hc.generation.sort_inj] at hproof
  exact ⟨hl, hr, hproof⟩

/-- The cast of a proof of the right side proves the left side. -/
theorem castGoal (hprop : eq.carrier.isProp)
    {Γ' : Locals} (hΓ : ∀ {x A}, Γ.type x = some A → Γ'.type x = some A)
    (hnew : HasType henv.signature Γ' [] new.term eq.rhs.term) :
    HasType henv.signature Γ' [] (Expr.mkApp (.const Vocabulary.eqMpr [.zero])
      [eq.lhs, eq.rhs, eq.proof, new]).term eq.lhs.term := by
  obtain ⟨hl, hr, hproof⟩ := heq.of_isProp hprop
  exact hasType_eqMpr henv hprelude (hl.weaken hΓ) (hr.weaken hΓ) (hproof.weaken hΓ) hnew

/-- The cast of a proof of the left side proves the right side. -/
theorem castHyp (hprop : eq.carrier.isProp)
    (hold : HasType henv.signature Γ [] old.term eq.lhs.term) :
    HasType henv.signature Γ [] (Expr.mkApp (.const Vocabulary.eqMp [.zero])
      [eq.lhs, eq.rhs, eq.proof, old]).term eq.rhs.term := by
  obtain ⟨hl, hr, hproof⟩ := heq.of_isProp hprop
  exact hasType_eqMp henv hprelude hl hr hproof hold

end Equation.Typed

end

end Pinpoint
