/-
The notation of an expression, as the printer writes it.

`e.written depth prec` is the term that the printer writes for `e` under
`depth` binders, where at least `prec` is asked for: with a pair of
parentheses for each one in the text.

* `Shown` — whether it has all of the expression that is shown;
* `isGrammatical_written` — it is a term of the grammar;
* `spells_write` — its tokens are those of the printed text.
-/
import Pinpoint.Proofs.Scoping
import Pinpoint.Proofs.Spelling

namespace Pinpoint

/-! ### Applications of written terms -/

namespace Surface

/-- Arguments followed by others. -/
def Args.append : Args → Args → Args
  | .one a, others => .cons a others
  | .cons a rest, others => .cons a (rest.append others)

/-- A term applied to arguments, which join those of an application. -/
def Term.applyArgs : Term → Args → Term
  | .app _ head args, others => .app .nowhere head (args.append others)
  | head, args => .app .nowhere head args

/-- A term in parentheses, if they are needed. -/
def Term.enclose (needed : Bool) (e : Term) : Term := if needed then .paren .nowhere e else e

variable {before : Nat → Term → Bool} {head e : Term} {args others : Args}

@[simp] theorem Args.tokens_append (args others : Args) :
    (args.append others).tokens = args.tokens ++ others.tokens := by
  fun_induction Args.append args others with
  | case1 => rfl
  | case2 _ _ _ ih => simp [tokens, ih]

theorem Args.endsInBinder_append (args others : Args) :
    (args.append others).endsInBinder = others.endsInBinder := by
  fun_induction Args.append args others with
  | case1 => rfl
  | case2 _ _ _ ih => exact ih

theorem Args.fit_append (h : args.fit Term.endsClosed) (hend : args.endsInBinder = false)
    (h' : others.fit Term.endsClosed) : (args.append others).fit Term.endsClosed := by
  fun_induction Args.append args others with
  | case1 a others =>
    have hend : a.endsInBinder = false := hend
    simp only [fit, Bool.and_eq_true]
    exact ⟨⟨h, by simp [Term.endsClosed, hend]⟩, h'⟩
  | case2 a rest others ih =>
    simp only [fit, Bool.and_eq_true] at h ⊢
    exact ⟨h.1, ih h.2 hend h'⟩

@[simp] theorem Term.tokens_applyArgs (head : Term) (args : Args) :
    (head.applyArgs args).tokens = head.tokens ++ args.tokens := by
  cases head <;> simp [applyArgs, tokens]

@[simp] theorem Term.tokens_enclose (needed : Bool) (e : Term) :
    (e.enclose needed).tokens =
      if needed then .lparen :: (e.tokens ++ [.rparen]) else e.tokens := by
  cases needed <;> rfl

theorem Term.endsInBinder_applyArgs (head : Term) (args : Args) :
    (head.applyArgs args).endsInBinder = args.endsInBinder := by
  cases head <;> simp [applyArgs, endsInBinder, Args.endsInBinder_append]

/-- A function that ends in no binder, applied to atoms. -/
theorem Term.fits_applyArgs (h : head.fits endsClosed Precedence.app)
    (hend : head.endsInBinder = false) (hargs : args.fit endsClosed) :
    (head.applyArgs args).fits endsClosed Precedence.app := by
  by_cases happ : head.precedence = Precedence.app
  · obtain ⟨s, inner, args', rfl⟩ := precedence_eq_app happ
    simp only [fits, applyArgs, Bool.and_eq_true] at h ⊢
    exact ⟨h.1, Args.fit_append h.2 hend hargs⟩
  · have hatom : head.fits endsClosed Precedence.arg := by
      refine fits_of_imp h fun hle => ?_
      have := head.precedence_cases
      simp only [IsGrade, Precedence.app, Precedence.arg] at this happ hle ⊢
      omega
    have heq : head.applyArgs args = .app .nowhere head args := by
      cases head <;> first | rfl | exact absurd rfl happ
    simp only [heq, fits, Bool.and_eq_true, decide_eq_true_eq]
    exact ⟨⟨⟨Nat.le_refl _, hatom⟩, by simp [endsClosed, hend]⟩, hargs⟩

/-- What binds tightly enough, or stands in parentheses. -/
theorem Term.fits_enclose {own prec : Nat} (h : e.fits before own) :
    (e.enclose (own < prec)).fits before prec := by
  unfold enclose
  split
  · exact e.fits_mono h (Nat.zero_le _)
  · rename_i hlt
    exact e.fits_mono h (by simpa using hlt)

theorem Term.endsInBinder_enclose {needed : Bool} (h : e.endsInBinder = false ∨ needed) :
    (e.enclose needed).endsInBinder = false := by
  cases needed with
  | false => exact h.resolve_right (by simp)
  | true => rfl

end Surface

namespace Expr

/-! ### Printable expressions -/

/-- Whether the bound variable that has the index `k` outside the expression
occurs in it. -/
def usesBVar : Nat → Expr → Bool
  | k, .bvar i => i.toNat = k
  | k, .app f a => f.usesBVar k || a.usesBVar k
  | k, .lam _ t b => t.usesBVar k || b.usesBVar (k + 1)
  | k, .pi _ t b => t.usesBVar k || b.usesBVar (k + 1)
  | k, .letE t v b => t.usesBVar k || v.usesBVar k || b.usesBVar (k + 1)
  | k, .mdata _ e => e.usesBVar k
  | _, _ => false

/-- Whether an expression consists of applications, functions, quantifications,
bound variables, the first two universes, numbers, and constants with names
that are read as identifiers. -/
def isPrintable : Expr → Bool
  | .bvar _ => true
  | .sort l => l.simplify.toNat? = some 0 || l.simplify.toNat? = some 1
  | .const n _ => Surface.isIdentifier n.render && n.render != "Prop" && n.render != "Type"
  | .lit (.nat _) => true
  | .app f a => f.isPrintable && a.isPrintable
  | .lam _ t b => t.isPrintable && b.isPrintable
  | .pi _ t b => t.isPrintable && b.isPrintable
  | _ => false

/-- The term that is printed for an expression under `depth` binders, where at
least `prec` is asked for; what is not printable is passed over. -/
def written (depth prec : Nat) (e : Expr) : Surface.Term :=
  match _h : e.operation? with
  | some (op, a, b) =>
    .enclose (op.precedence < prec)
      (.binary .nowhere op (written depth op.leftPrecedence a) (written depth op.rightPrecedence b))
  | none =>
    match e with
    | .bvar i => .ident .nowhere (binderName (depth - 1 - i.toNat))
    | .sort l => if l.simplify.toNat? = some 0 then .prop .nowhere else .type .nowhere
    | .const n _ => .ident .nowhere n.render
    | .lit (.nat n) => .nat .nowhere n
    | .lit (.str s) => .str .nowhere s
    | .app f a =>
      .enclose (Precedence.app < prec)
        ((written depth Precedence.app f).applyArgs (.one (written depth Precedence.arg a)))
    | .pi _ t b =>
      if b.usesBVar 0 then
        .enclose (Precedence.binder < prec)
          (.pi .nowhere (.one ⟨.nowhere, binderName depth⟩ (written depth Precedence.binder t))
            (written (depth + 1) Precedence.binder b))
      else
        .enclose (Precedence.arrow < prec)
          (.arrow .nowhere (written depth (Precedence.arrow + 1) t)
            (written (depth + 1) Precedence.arrow b))
    | .lam _ t b =>
      .enclose (Precedence.binder < prec)
        (.lam .nowhere (.one ⟨.nowhere, binderName depth⟩ (written depth Precedence.binder t))
          (written (depth + 1) Precedence.binder b))
    | _ => .prop .nowhere
termination_by sizeOf e
decreasing_by
  all_goals first
    | exact (sizeOf_lt_of_operation? _h).1
    | exact (sizeOf_lt_of_operation? _h).2
    | (simp only [Expr.app.sizeOf_spec, Expr.lam.sizeOf_spec, Expr.pi.sizeOf_spec]; omega)

variable {names : FVarId → Option Name} {binders : List String} {depth prec : Nat} {e a b : Expr}
  {op : Operator}

theorem write_of_operation (h : e.operation? = some (op, a, b)) :
    e.write names binders prec = parenthesize (op.precedence < prec)
      (a.write names binders op.leftPrecedence ++ " " ++ op.sign ++ " " ++
        b.write names binders op.rightPrecedence) := by
  rw [write]
  split
  · rename_i heq
    cases heq.symm.trans h
    rfl
  · rename_i heq
    cases heq.symm.trans h

theorem written_of_operation (h : e.operation? = some (op, a, b)) :
    e.written depth prec = .enclose (op.precedence < prec)
      (.binary .nowhere op (a.written depth op.leftPrecedence)
        (b.written depth op.rightPrecedence)) := by
  rw [written]
  split
  · rename_i heq
    cases heq.symm.trans h
    rfl
  · rename_i heq
    cases heq.symm.trans h

theorem write_app (h : (app a b).operation? = none) :
    (app a b).write names binders prec = parenthesize (Precedence.app < prec)
      (a.write names binders Precedence.app ++ " " ++ b.write names binders Precedence.arg) := by
  rw [write]
  split
  · rename_i heq
    cases heq.symm.trans h
  · rfl

theorem written_app (h : (app a b).operation? = none) :
    (app a b).written depth prec = .enclose (Precedence.app < prec)
      ((a.written depth Precedence.app).applyArgs (.one (b.written depth Precedence.arg))) := by
  rw [written]
  split
  · rename_i heq
    cases heq.symm.trans h
  · rfl

theorem written_bvar (i : UInt32) :
    (bvar i).written depth prec = .ident .nowhere (binderName (depth - 1 - i.toNat)) := by
  rw [written]
  rfl

theorem written_lam (i : BinderInfo) (t b : Expr) :
    (lam i t b).written depth prec = .enclose (Precedence.binder < prec)
      (.lam .nowhere (.one ⟨.nowhere, binderName depth⟩ (t.written depth Precedence.binder))
        (b.written (depth + 1) Precedence.binder)) := by
  rw [written]
  rfl

theorem written_pi (i : BinderInfo) (t b : Expr) :
    (pi i t b).written depth prec =
      if b.usesBVar 0 then
        .enclose (Precedence.binder < prec)
          (.pi .nowhere (.one ⟨.nowhere, binderName depth⟩ (t.written depth Precedence.binder))
            (b.written (depth + 1) Precedence.binder))
      else
        .enclose (Precedence.arrow < prec)
          (.arrow .nowhere (t.written depth (Precedence.arrow + 1))
            (b.written (depth + 1) Precedence.arrow)) := by
  rw [written]
  rfl

theorem eq_of_operation? (h : e.operation? = some (op, a, b)) :
    ∃ head, e = .app (.app head a) b := by
  unfold operation? at h
  split at h
  · obtain ⟨_, -, heq⟩ := Option.map_eq_some_iff.mp h
    cases heq
    exact ⟨_, rfl⟩
  · split at h <;> cases h
    exact ⟨_, rfl⟩
  · cases h

/-- Induction along what is printed of an expression: an operator with all its
arguments, or one node. -/
theorem printable_induction {motive : (e : Expr) → e.isPrintable → Prop}
    (operation : ∀ e op a b he ha hb, e.operation? = some (op, a, b) → motive a ha → motive b hb →
      motive e he)
    (bvar : ∀ i, motive (.bvar i) rfl) (sort : ∀ l h, motive (.sort l) h)
    (const : ∀ n ls h, motive (.const n ls) h) (nat : ∀ n, motive (.lit (.nat n)) rfl)
    (app : ∀ f a h hf ha, (Expr.app f a).operation? = none → motive f hf → motive a ha →
      motive (.app f a) h)
    (lam : ∀ i t b h ht hb, motive t ht → motive b hb → motive (.lam i t b) h)
    (pi : ∀ i t b h ht hb, motive t ht → motive b hb → motive (.pi i t b) h) :
    (e : Expr) → (h : e.isPrintable) → motive e h := by
  intro e h
  cases hop : e.operation? with
  | some p =>
    obtain ⟨op, a, b⟩ := p
    have hsize := sizeOf_lt_of_operation? hop
    obtain ⟨head, heq⟩ := eq_of_operation? hop
    -- An operation has printable operands; its head is printed as the operator.
    have hparts : a.isPrintable ∧ b.isPrintable := by
      rw [heq] at h
      simp only [isPrintable, Bool.and_eq_true] at h
      exact ⟨h.1.2, h.2⟩
    exact operation e op a b h hparts.1 hparts.2 hop
      (printable_induction operation bvar sort const nat app lam pi a hparts.1)
      (printable_induction operation bvar sort const nat app lam pi b hparts.2)
  | none =>
    -- All other expressions are printed node by node.
    cases e with
    | bvar i => exact bvar i
    | sort l => exact sort l h
    | const n ls => exact const n ls h
    | lit v =>
      cases v with
      | nat n => exact nat n
      | str s => cases h
    | app f a =>
      have hparts := Bool.and_eq_true_iff.mp h
      exact app f a h hparts.1 hparts.2 hop
        (printable_induction operation bvar sort const nat app lam pi f hparts.1)
        (printable_induction operation bvar sort const nat app lam pi a hparts.2)
    | lam i t b =>
      have hparts := Bool.and_eq_true_iff.mp h
      exact lam i t b h hparts.1 hparts.2
        (printable_induction operation bvar sort const nat app lam pi t hparts.1)
        (printable_induction operation bvar sort const nat app lam pi b hparts.2)
    | pi i t b =>
      have hparts := Bool.and_eq_true_iff.mp h
      exact pi i t b h hparts.1 hparts.2
        (printable_induction operation bvar sort const nat app lam pi t hparts.1)
        (printable_induction operation bvar sort const nat app lam pi b hparts.2)
    | fvar | letE | mdata => cases h
termination_by e => sizeOf e
decreasing_by
  all_goals first
    | exact hsize.1
    | exact hsize.2
    | (subst_vars
       simp only [Expr.app.sizeOf_spec, Expr.lam.sizeOf_spec, Expr.pi.sizeOf_spec]
       omega)

/-- Whether all that is printed of an expression can be read: operations of two such
operands, whatever their constants are applied to besides, printable nodes, and text
literals that are read as they are written. -/
inductive Shown : Expr → Prop
  | operation {e a b : Expr} {op : Operator} :
      e.operation? = some (op, a, b) → Shown a → Shown b → Shown e
  | bvar (i : UInt32) : Shown (.bvar i)
  | sort {l : Level} : (Expr.sort l).isPrintable → Shown (.sort l)
  | const {n : Name} {ls : List Level} : (Expr.const n ls).isPrintable → Shown (.const n ls)
  | nat (n : UInt64) : Shown (.lit (.nat n))
  | text {s : String} : (∀ c ∈ s.toList, Surface.isReadBack c) → Shown (.lit (.str s))
  | app {f a : Expr} : (Expr.app f a).operation? = none → Shown f → Shown a → Shown (.app f a)
  | lam {i : BinderInfo} {t b : Expr} : Shown t → Shown b → Shown (.lam i t b)
  | pi {i : BinderInfo} {t b : Expr} : Shown t → Shown b → Shown (.pi i t b)

theorem shown_of_isPrintable (h : e.isPrintable) : e.Shown := by
  induction e, h using printable_induction with
  | operation e op a b _ _ _ hop iha ihb => exact .operation hop iha ihb
  | bvar i => exact .bvar i
  | sort l h => exact .sort h
  | const n ls h => exact .const h
  | nat n => exact .nat n
  | app f a _ _ _ hop ihf iha => exact .app hop ihf iha
  | lam i t b _ _ _ iht ihb => exact .lam iht ihb
  | pi i t b _ _ _ iht ihb => exact .pi iht ihb

/-! ### The printed term is one of the grammar -/

theorem lt_of_usesBVar {n k : Nat} (h : e.Scoped n) (hk : e.usesBVar k) : k < n := by
  induction e generalizing n k with
  | bvar i =>
    simp only [usesBVar, decide_eq_true_eq] at hk
    exact hk ▸ h
  | app f a ihf iha =>
    simp only [usesBVar, Bool.or_eq_true] at hk
    exact hk.elim (ihf h.1) (iha h.2)
  | lam i t b iht ihb | pi i t b iht ihb =>
    simp only [usesBVar, Bool.or_eq_true] at hk
    exact hk.elim (iht h.1) fun hb => Nat.lt_of_succ_lt_succ (ihb h.2 hb)
  | letE t v b iht ihv ihb =>
    simp only [usesBVar, Bool.or_eq_true] at hk
    exact hk.elim (fun hk => hk.elim (iht h.1) (ihv h.2.1))
      fun hb => Nat.lt_of_succ_lt_succ (ihb h.2.2 hb)
  | mdata m e ih => exact ih h hk
  | _ => cases hk

/-- A bound name and its type. -/
theorem fit_binder (depth : Nat) {t : Surface.Term}
    (ht : t.fits Surface.Term.endsClosed Precedence.binder) :
    (Surface.Binders.one ⟨.nowhere, binderName depth⟩ t).fit Surface.Term.endsClosed := by
  simp [Surface.Binders.fit, Surface.Binder.isWritable, Surface.isIdentifier_binderName, ht]

theorem fits_written (he : e.Shown) :
    ∀ depth prec, (e.written depth prec).fits Surface.Term.endsClosed prec ∧
      (0 < prec → (e.written depth prec).endsInBinder = false) := by
  induction he with
  | @operation e a b op hop _ _ iha ihb =>
    intro depth prec
    rw [written_of_operation hop]
    have hleft := iha depth op.leftPrecedence
    have hright := ihb depth op.rightPrecedence
    have hend := hleft.2 (by cases op <;> decide)
    refine ⟨Surface.Term.fits_enclose ?_, fun _ => Surface.Term.endsInBinder_enclose (.inl ?_)⟩
    · -- The left operand stands in front of the operator, so it must not end in a binder.
      simp only [Surface.Term.fits, Bool.and_eq_true, decide_eq_true_eq]
      refine ⟨⟨⟨Nat.le_refl _, Surface.Term.fits_mono hleft.1 ?_⟩,
        by simp [Surface.Term.endsClosed, hend]⟩, hright.1⟩
      cases op <;> decide
    · exact hright.2 (by cases op <;> decide)
  | bvar i =>
    intro depth prec
    rw [written_bvar]
    refine ⟨?_, fun _ => rfl⟩
    simp [Surface.Term.fits, Surface.isIdentifier_binderName,
      Surface.binderName_ne (s := "Prop") (by decide),
      Surface.binderName_ne (s := "Type") (by decide)]
  | @sort l h =>
    intro depth prec
    rw [written]
    simp only [operation?]
    split <;> exact ⟨rfl, fun _ => rfl⟩
  | const h =>
    intro depth prec
    rw [written]
    exact ⟨h, fun _ => rfl⟩
  | nat | text =>
    intro depth prec
    rw [written]
    exact ⟨rfl, fun _ => rfl⟩
  | @app f a hop _ _ ihf iha =>
    intro depth prec
    rw [written_app hop]
    have hfn := ihf depth Precedence.app
    have harg := iha depth Precedence.arg
    -- The argument is written in its place behind the function.
    have hargs : (Surface.Args.one (a.written depth Precedence.arg)).fit Surface.Term.endsClosed :=
      harg.1
    have happ := Surface.Term.fits_applyArgs hfn.1 (hfn.2 (by decide)) hargs
    refine ⟨Surface.Term.fits_enclose happ, fun _ => Surface.Term.endsInBinder_enclose (.inl ?_)⟩
    rw [Surface.Term.endsInBinder_applyArgs]
    exact harg.2 (by decide)
  | @lam i t b _ _ iht ihb =>
    intro depth prec
    rw [written_lam]
    -- In a place that binds tighter the abstraction is put in parentheses.
    refine ⟨Surface.Term.fits_enclose ?_, fun hprec =>
      Surface.Term.endsInBinder_enclose (.inr (decide_eq_true hprec))⟩
    simp only [Surface.Term.fits, Bool.and_eq_true]
    exact ⟨fit_binder depth (iht _ _).1, (ihb _ _).1⟩
  | @pi i t b _ _ iht ihb =>
    intro depth prec
    rw [written_pi]
    split
    · refine ⟨Surface.Term.fits_enclose ?_, fun hprec =>
        Surface.Term.endsInBinder_enclose (.inr (decide_eq_true hprec))⟩
      simp only [Surface.Term.fits, Bool.and_eq_true]
      exact ⟨fit_binder depth (iht _ _).1, (ihb _ _).1⟩
    · -- The domain stands in front of the arrow, as the left operand does.
      have hdom := iht depth (Precedence.arrow + 1)
      have hcod := ihb (depth + 1) Precedence.arrow
      refine ⟨Surface.Term.fits_enclose ?_, fun _ =>
        Surface.Term.endsInBinder_enclose (.inl (hcod.2 (by decide)))⟩
      simp only [Surface.Term.fits, Bool.and_eq_true, decide_eq_true_eq]
      exact ⟨⟨⟨Nat.le_refl _, hdom.1⟩, by simp [Surface.Term.endsClosed, hdom.2]⟩, hcod.1⟩

theorem isGrammatical_written (he : e.Shown) :
    (e.written 0 Precedence.binder).isGrammatical :=
  (fits_written he _ _).1

/-! ### Its tokens are those of the printed text -/

theorem saturatingSucc_ofNat {k : Nat} (hk : k + 1 < 2 ^ 32) :
    saturatingSucc (UInt32.ofNat k) = UInt32.ofNat (k + 1) := by
  have hne : UInt32.ofNat k ≠ maxIndex := by
    intro heq
    have hmax := congrArg UInt32.toNat heq
    rw [UInt32.toNat_ofNat_of_lt' (show k < 2 ^ 32 by omega),
      show maxIndex.toNat = 2 ^ 32 - 1 from rfl] at hmax
    omega
  rw [saturatingSucc, if_neg hne, ofNat_succ]

/-- The search for a bound variable finds it, where its index does not wrap. -/
theorem hasLooseBVarInRange_succ {k : Nat} (hk : k + e.nesting + 1 < 2 ^ 32) :
    e.hasLooseBVarInRange (UInt32.ofNat k) (UInt32.ofNat (k + 1)) = e.usesBVar k := by
  induction e generalizing k with
  | bvar i =>
    simp only [nesting] at hk
    have hlo : (UInt32.ofNat k).toNat = k := UInt32.toNat_ofNat_of_lt' (show k < 2 ^ 32 by omega)
    have hhi : (UInt32.ofNat (k + 1)).toNat = k + 1 :=
      UInt32.toNat_ofNat_of_lt' (show k + 1 < 2 ^ 32 by omega)
    simp only [hasLooseBVarInRange, usesBVar, UInt32.le_iff_toNat_le, UInt32.lt_iff_toNat_lt, hlo,
      hhi, ← Bool.decide_and, decide_eq_decide]
    omega
  | app f a ihf iha =>
    simp only [nesting] at hk
    rw [hasLooseBVarInRange, usesBVar, ihf (by omega), iha (by omega)]
  | lam i t b iht ihb | pi i t b iht ihb =>
    simp only [nesting] at hk
    rw [hasLooseBVarInRange, usesBVar, ← ofNat_succ,
      saturatingSucc_ofNat (show k + 1 + 1 < 2 ^ 32 by omega), iht (by omega), ihb (by omega)]
  | letE t v b iht ihv ihb =>
    simp only [nesting] at hk
    rw [hasLooseBVarInRange, usesBVar, ← ofNat_succ,
      saturatingSucc_ofNat (show k + 1 + 1 < 2 ^ 32 by omega), iht (by omega), ihv (by omega),
      ihb (by omega)]
  | mdata m e ih => exact ih hk
  | _ => rfl

/-- Whether the names of the binders are those of the variables that a term
uses. -/
def Named (binders : List String) (e : Expr) : Prop :=
  ∀ k, e.usesBVar k → binders[k]? = some (binderName (binders.length - 1 - k))

theorem Named.app_fn {f a : Expr} (h : Named binders (.app f a)) : Named binders f := fun k hk =>
  h k (by simp [usesBVar, hk])

theorem Named.app_arg {f a : Expr} (h : Named binders (.app f a)) : Named binders a := fun k hk =>
  h k (by simp [usesBVar, hk])

theorem Named.under {x : String} (h : ∀ k, e.usesBVar (k + 1) →
    binders[k]? = some (binderName (binders.length - 1 - k)))
    (hx : e.usesBVar 0 → x = binderName binders.length) : Named (x :: binders) e := by
  intro k hk
  cases k with
  | zero => simpa using hx hk
  | succ k =>
    rw [List.getElem?_cons_succ, h k hk, List.length_cons]
    congr 2
    omega

theorem Named.type {i : BinderInfo} {t b : Expr} (h : Named binders (.pi i t b)) :
    Named binders t := fun k hk => h k (by simp [usesBVar, hk])

theorem Named.body {i : BinderInfo} {t b : Expr} {x : String} (h : Named binders (.pi i t b))
    (hx : b.usesBVar 0 → x = binderName binders.length) : Named (x :: binders) b :=
  .under (fun k hk => h k (by simp [usesBVar, hk])) hx

theorem tokens_binder (depth : Nat) (t : Surface.Term) :
    (Surface.Binders.one ⟨.nowhere, binderName depth⟩ t).tokens =
      .lparen :: .ident (binderName depth) :: .colon :: (t.tokens ++ [.rparen]) := by
  rw [Surface.Binders.tokens, Surface.Binder.token,
    if_neg (Surface.binderName_ne (by decide) depth)]

theorem spells_write (he : e.Shown) (hnesting : e.nesting < 2 ^ 32) :
    ∀ (binders : List String) (prec : Nat), Named binders e →
      Surface.Spells (e.write names binders prec) (e.written binders.length prec).tokens := by
  induction he with
  | @operation e a b op hop _ _ iha ihb =>
    intro binders prec hnamed
    obtain ⟨head, rfl⟩ := eq_of_operation? hop
    simp only [nesting] at hnesting
    have hleft := iha (by omega) binders op.leftPrecedence hnamed.app_fn.app_arg
    have hright := ihb (by omega) binders op.rightPrecedence hnamed.app_arg
    -- The operands are spelled on the two sides of the operator.
    rw [write_of_operation hop, written_of_operation hop, Surface.Term.tokens_enclose]
    exact (hleft.operation op hright).parenthesize _
  | bvar i =>
    intro binders prec hnamed
    have hi := hnamed i.toNat (by simp [usesBVar])
    rw [write, written_bvar]
    simp only [operation?, hi]
    exact Surface.spells_word (Surface.isIdentifier_binderName _)
  | @sort l h =>
    intro binders prec _
    rw [write, written]
    simp only [operation?, Level.renderSort]
    simp only [isPrintable, Bool.or_eq_true, decide_eq_true_eq] at h
    rcases h with hl | hl
    · -- A universe is printed as one of two words.
      simp only [hl, if_true]
      exact Surface.spells_word (by decide +kernel)
    · simp only [hl]
      exact Surface.spells_word (by decide +kernel)
  | const h =>
    intro binders prec _
    rw [write, written]
    simp only [isPrintable, Bool.and_eq_true] at h
    exact Surface.spells_word h.1.1
  | nat n =>
    intro binders prec _
    rw [write, written]
    exact Surface.spells_number n
  | text h =>
    intro binders prec _
    rw [write, written]
    exact Surface.spells_text h
  | @app f a hop _ _ ihf iha =>
    intro binders prec hnamed
    simp only [nesting] at hnesting
    have hfn := ihf (by omega) binders Precedence.app hnamed.app_fn
    have harg := iha (by omega) binders Precedence.arg hnamed.app_arg
    rw [write_app hop, written_app hop, Surface.Term.tokens_enclose, Surface.Term.tokens_applyArgs]
    exact (hfn.app harg).parenthesize _
  | @lam i t b _ _ iht ihb =>
    intro binders prec hnamed
    simp only [nesting] at hnesting
    -- The name of the binder is new for the body.
    have hnamed : Named binders (.pi i t b) := hnamed
    have htype := iht (by omega) binders Precedence.binder hnamed.type
    have hbody := ihb (by omega) _ Precedence.binder (hnamed.body fun _ => rfl)
    rw [write, written_lam, Surface.Term.tokens_enclose, Surface.Term.tokens, tokens_binder]
    have hspells := htype.lam (Surface.isIdentifier_binderName binders.length) hbody
    simpa [operation?] using hspells.parenthesize (Precedence.binder < prec)
  | @pi i t b _ _ iht ihb =>
    intro binders prec hnamed
    simp only [nesting] at hnesting
    -- A binder is written if the body uses it, and an arrow otherwise; the name of the
    -- binder that an arrow leaves out is never looked up.
    have huses : b.hasLooseBVarInRange 0 1 = b.usesBVar 0 :=
      hasLooseBVarInRange_succ (k := 0) (by omega)
    rw [write, written_pi]
    simp only [operation?, huses]
    cases hb : b.usesBVar 0 with
    | true =>
      have htype := iht (by omega) binders Precedence.binder hnamed.type
      have hbody := ihb (by omega) _ Precedence.binder (hnamed.body fun _ => rfl)
      rw [if_pos rfl, if_pos rfl, Surface.Term.tokens_enclose, Surface.Term.tokens, tokens_binder]
      have hspells := htype.pi (Surface.isIdentifier_binderName binders.length) hbody
      simpa using hspells.parenthesize (Precedence.binder < prec)
    | false =>
      have htype := iht (by omega) binders (Precedence.arrow + 1) hnamed.type
      have hbody := ihb (by omega) ("_" :: binders) Precedence.arrow
        (hnamed.body fun huse => absurd (hb.symm.trans huse) (by decide))
      rw [if_neg (by decide), if_neg (by decide), Surface.Term.tokens_enclose]
      exact (htype.arrow hbody).parenthesize _

end Expr

end Pinpoint
