/-
Printed expressions are read back with the grouping that they have.

`e.outline depth` is the notation of an expression, without any regard to
precedences: operators for the constants that they stand for, arrows and
one-binder quantifications and functions, and one application for a spine.
`Term.flatten` forgets the parentheses of a term and the places of its parts.

* `flatten_written` — parentheses apart, what is printed is the outline;
* `parse_pretty_written`, `parse_pretty` — what is read from the printed text is
  what was written, and has the outline of the expression.
-/
import Pinpoint.Proofs.Recognition
import Pinpoint.Proofs.Written

namespace Pinpoint

namespace Surface

mutual

/-- A term without parentheses and without the places of its parts; an
application that is applied further is one application. -/
def Term.flatten : Term → Term
  | .ident _ s => .ident .nowhere s
  | .prop _ => .prop .nowhere
  | .type _ => .type .nowhere
  | .nat _ n => .nat .nowhere n
  | .str _ s => .str .nowhere s
  | .app _ head args => head.flatten.applyArgs args.flatten
  | .lam _ bs body => .lam .nowhere bs.flatten body.flatten
  | .pi _ bs body => .pi .nowhere bs.flatten body.flatten
  | .arrow _ dom cod => .arrow .nowhere dom.flatten cod.flatten
  | .binary _ op lhs rhs => .binary .nowhere op lhs.flatten rhs.flatten
  | .paren _ e => e.flatten

/-- The same for arguments. -/
def Args.flatten : Args → Args
  | .one a => .one a.flatten
  | .cons a rest => .cons a.flatten rest.flatten

/-- The same for binders. -/
def Binders.flatten : Binders → Binders
  | .one b t => .one ⟨.nowhere, b.name⟩ t.flatten
  | .cons b t rest => .cons ⟨.nowhere, b.name⟩ t.flatten rest.flatten

end

mutual

theorem Term.flatten_bare : (e : Term) → e.bare.flatten = e.flatten
  | .ident .. | .prop _ | .type _ | .nat .. | .str .. => rfl
  | .app _ head args => by
    rw [Term.bare, Term.flatten, head.flatten_bare, args.flatten_bare, Term.flatten]
  | .lam _ bs body | .pi _ bs body => by
    rw [Term.bare, Term.flatten, bs.flatten_bare, body.flatten_bare, Term.flatten]
  | .arrow _ dom cod => by
    rw [Term.bare, Term.flatten, dom.flatten_bare, cod.flatten_bare, Term.flatten]
  | .binary _ _ lhs rhs => by
    rw [Term.bare, Term.flatten, lhs.flatten_bare, rhs.flatten_bare, Term.flatten]
  | .paren _ e => e.flatten_bare

theorem Args.flatten_bare : (args : Args) → args.bare.flatten = args.flatten
  | .one a => by rw [Args.bare, Args.flatten, a.flatten_bare, Args.flatten]
  | .cons a rest => by
    rw [Args.bare, Args.flatten, a.flatten_bare, rest.flatten_bare, Args.flatten]

theorem Binders.flatten_bare : (bs : Binders) → bs.bare.flatten = bs.flatten
  | .one b t => by rw [Binders.bare, Binders.flatten, t.flatten_bare, Binders.flatten]
  | .cons b t rest => by
    rw [Binders.bare, Binders.flatten, t.flatten_bare, rest.flatten_bare, Binders.flatten]

end

theorem Args.append_assoc (as bs cs : Args) :
    (as.append bs).append cs = as.append (bs.append cs) := by
  fun_induction Args.append as bs with
  | case1 => rfl
  | case2 _ _ _ ih => rw [Args.append, ih, Args.append]

theorem Args.flatten_append (as bs : Args) :
    (as.append bs).flatten = as.flatten.append bs.flatten := by
  fun_induction Args.append as bs with
  | case1 => rfl
  | case2 _ _ _ ih => rw [Args.flatten, ih, Args.flatten, Args.append]

theorem Term.applyArgs_applyArgs (e : Term) (as bs : Args) :
    (e.applyArgs as).applyArgs bs = e.applyArgs (as.append bs) := by
  cases e <;> simp only [applyArgs, Args.append_assoc]

theorem Term.flatten_applyArgs (e : Term) (args : Args) :
    (e.applyArgs args).flatten = e.flatten.applyArgs args.flatten := by
  cases e with
  | app s head args' =>
    rw [applyArgs, flatten, flatten, Args.flatten_append, applyArgs_applyArgs]
  | _ => rfl

@[simp] theorem Term.flatten_enclose (e : Term) (needed : Bool) :
    (e.enclose needed).flatten = e.flatten := by
  cases needed <;> rfl

end Surface

namespace Expr

/-- The notation of an expression under `depth` binders; what is not printable
is passed over. -/
def outline (depth : Nat) (e : Expr) : Surface.Term :=
  match _h : e.operation? with
  | some (op, a, b) => .binary .nowhere op (outline depth a) (outline depth b)
  | none =>
    match e with
    | .bvar i => .ident .nowhere (binderName (depth - 1 - i.toNat))
    | .sort l => if l.simplify.toNat? = some 0 then .prop .nowhere else .type .nowhere
    | .const n _ => .ident .nowhere n.render
    | .lit (.nat n) => .nat .nowhere n
    | .app f a => (outline depth f).applyArgs (.one (outline depth a))
    | .pi _ t b =>
      if b.usesBVar 0 then
        .pi .nowhere (.one ⟨.nowhere, binderName depth⟩ (outline depth t)) (outline (depth + 1) b)
      else .arrow .nowhere (outline depth t) (outline (depth + 1) b)
    | .lam _ t b =>
      .lam .nowhere (.one ⟨.nowhere, binderName depth⟩ (outline depth t)) (outline (depth + 1) b)
    | _ => .prop .nowhere
termination_by sizeOf e
decreasing_by
  all_goals first
    | exact (sizeOf_lt_of_operation? _h).1
    | exact (sizeOf_lt_of_operation? _h).2
    | (simp only [Expr.app.sizeOf_spec, Expr.lam.sizeOf_spec, Expr.pi.sizeOf_spec]; omega)

variable {depth : Nat} {e a b : Expr} {op : Operator}

theorem outline_of_operation (h : e.operation? = some (op, a, b)) :
    e.outline depth = .binary .nowhere op (a.outline depth) (b.outline depth) := by
  rw [outline]
  split
  · rename_i heq
    cases heq.symm.trans h
    rfl
  · rename_i heq
    cases heq.symm.trans h

theorem outline_app (h : (app a b).operation? = none) :
    (app a b).outline depth = (a.outline depth).applyArgs (.one (b.outline depth)) := by
  rw [outline]
  split
  · rename_i heq
    cases heq.symm.trans h
  · rfl

theorem outline_nat (n : UInt64) : (lit (.nat n)).outline depth = .nat .nowhere n := by
  rw [outline]
  rfl

/-- Parentheses apart, the outline is what is printed. -/
theorem flatten_written (he : e.isPrintable) :
    ∀ depth prec, (e.written depth prec).flatten = e.outline depth := by
  induction e, he using printable_induction with
  | operation e op a b he ha hb hop iha ihb =>
    intro depth prec
    rw [written_of_operation hop, outline_of_operation hop, Surface.Term.flatten_enclose,
      Surface.Term.flatten, iha, ihb]
  | bvar i =>
    intro depth prec
    rw [written, outline]
    rfl
  | sort l h =>
    intro depth prec
    rw [written, outline]
    simp only [operation?]
    split <;> rfl
  | const n ls h =>
    intro depth prec
    rw [written, outline]
    rfl
  | nat n =>
    intro depth prec
    rw [written, outline_nat]
    rfl
  | app f a h hf ha hop ihf iha =>
    intro depth prec
    rw [written_app hop, outline_app hop, Surface.Term.flatten_enclose,
      Surface.Term.flatten_applyArgs, ihf, Surface.Args.flatten, iha]
  | lam i t b h ht hb iht ihb =>
    intro depth prec
    rw [written_lam, outline, Surface.Term.flatten_enclose, Surface.Term.flatten,
      Surface.Binders.flatten, iht, ihb]
    rfl
  | pi i t b h ht hb iht ihb =>
    intro depth prec
    rw [written_pi, outline]
    simp only [operation?]
    split
    · rw [Surface.Term.flatten_enclose, Surface.Term.flatten, Surface.Binders.flatten, iht, ihb]
    · rw [Surface.Term.flatten_enclose, Surface.Term.flatten, iht, ihb]

/-- What is read from a printed expression is what the printer writes for it. -/
theorem parse_pretty_written (names : FVarId → Option Name) (hshown : e.Shown)
    (hclosed : e.Scoped 0) (hnesting : e.nesting < 2 ^ 32) :
    ∃ t, Surface.Term.parse (e.pretty names) = .ok t ∧
      t.bare = (e.written 0 Precedence.binder).bare := by
  have hnamed : Named [] e := fun k hk => absurd (lt_of_usesBVar hclosed hk) (Nat.not_lt_zero k)
  have hspells : Surface.Spells (e.write names [] Precedence.binder) _ :=
    spells_write hshown hnesting [] Precedence.binder hnamed
  have hlexes := hspells [] [] rfl (.done rfl)
  rw [List.append_nil, List.append_nil] at hlexes
  obtain ⟨ts, hts, hkinds⟩ := Surface.tokenize_eq_ok_iff.mpr hlexes
  have hread := (Surface.Term.isGrammatical_iff.mp (isGrammatical_written hshown)).1
  obtain ⟨t, ht, hbare⟩ := Surface.ofTokens_tokens hread hkinds
  exact ⟨t, Surface.bind_eq_ok.mpr ⟨ts, hts, ht⟩, hbare⟩

/-- What is read from a printed expression has the outline of the
expression. -/
theorem parse_pretty (names : FVarId → Option Name) (hprintable : e.isPrintable)
    (hclosed : e.Scoped 0) (hnesting : e.nesting < 2 ^ 32) :
    ∃ t, Surface.Term.parse (e.pretty names) = .ok t ∧ t.flatten = e.outline 0 := by
  obtain ⟨t, ht, hbare⟩ := parse_pretty_written names (shown_of_isPrintable hprintable) hclosed hnesting
  refine ⟨t, ht, ?_⟩
  rw [← t.flatten_bare, hbare, Surface.Term.flatten_bare, flatten_written hprintable]

/-- A sum that is a factor of a product. -/
theorem parse_pretty_product :
    ∃ t, Surface.Term.parse ((mkApp (.const Vocabulary.mul []) [.const (.simple "Nat") [],
      mkApp (.const Vocabulary.add []) [.const (.simple "Nat") [], .lit (.nat 1), .lit (.nat 2)],
        .lit (.nat 3)]).pretty fun _ => none) = .ok t ∧
      t.flatten = .binary .nowhere .mul
        (.binary .nowhere .add (.nat .nowhere 1) (.nat .nowhere 2)) (.nat .nowhere 3) := by
  obtain ⟨t, ht, hflat⟩ := parse_pretty (e := mkApp (.const Vocabulary.mul [])
    [.const (.simple "Nat") [], mkApp (.const Vocabulary.add [])
      [.const (.simple "Nat") [], .lit (.nat 1), .lit (.nat 2)], .lit (.nat 3)]) (fun _ => none)
    (by decide +kernel) (by decide) (by decide)
  refine ⟨t, ht, hflat.trans ?_⟩
  have hproduct : (mkApp (.const Vocabulary.mul []) [.const (.simple "Nat") [],
      mkApp (.const Vocabulary.add []) [.const (.simple "Nat") [], .lit (.nat 1), .lit (.nat 2)],
        .lit (.nat 3)]).operation? = some (.mul, mkApp (.const Vocabulary.add [])
          [.const (.simple "Nat") [], .lit (.nat 1), .lit (.nat 2)], .lit (.nat 3)) := by rfl
  have hsum : (mkApp (.const Vocabulary.add [])
      [.const (.simple "Nat") [], .lit (.nat 1), .lit (.nat 2)]).operation? =
        some (.add, .lit (.nat 1), .lit (.nat 2)) := by rfl
  rw [outline_of_operation hproduct, outline_of_operation hsum, outline_nat, outline_nat,
    outline_nat]

end Expr

end Pinpoint
