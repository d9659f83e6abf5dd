/-
The grammar of written terms.

A term is well formed if each of its parts binds as tightly as its place asks
for, and if a function or a quantification that is not in parentheses stands
where nothing follows it.  `Term.fits` is told what may stand before a further
operand, and there are two answers:

* `Term.isGrammatical` — nothing that ends in a binder;
* `Term.isReadable` — what the reader does not go on with: a binder may stand
  before `=`, if its body ends in an equation, because equations are not
  grouped.

`Term.tokens` writes a term with a group of its own for each binder, and
`splitGroups` brings the groups of any tokens into that form.
-/
import Pinpoint.Expr.Printer
import Pinpoint.Surface.Parser

namespace Pinpoint

/-! ### Tokens -/

/-- The sign of an operator. -/
def Operator.token : Operator → Surface.TokenKind
  | .eq => .eq
  | .iff => .iff
  | .add => .plus
  | .mul => .star

/-- How tightly the left operand has to bind as it is read: all operators but
the equation group to the left. -/
def Operator.leftGrade : Operator → Nat
  | .iff => 20
  | op => op.leftPrecedence

namespace Surface

/-- The kinds of the tokens of a text. -/
def kinds (ts : List Token) : List TokenKind := ts.map Token.kind

/-- Whether a text is one identifier, and not a word of its own. -/
def isIdentifier (s : String) : Bool :=
  match tokenize s with
  | .ok ts => kinds ts = [.ident s, .eof]
  | .error _ => false

/-- How tightly what has been read has to bind for a token to go on with it. -/
def TokenKind.grade? : TokenKind → Option Nat
  | .iff => some 20
  | .arrow => some 25
  | .eq => some 50
  | .plus => some 65
  | .star => some 70
  | k => if k.startsAtom then some 1024 else none

/-- Whether a token is a bound name. -/
def TokenKind.isName : TokenKind → Bool
  | .ident _ | .underscore => true
  | _ => false

/-- The token of a bound name. -/
def Binder.token (b : Binder) : TokenKind := if b.name = "_" then .underscore else .ident b.name

/-- Whether a bound name is one that can be written. -/
def Binder.isWritable (b : Binder) : Bool := b.name = "_" || isIdentifier b.name

mutual

/-- The tokens of a term, with a group for each binder. -/
def Term.tokens : Term → List TokenKind
  | .ident _ s => [.ident s]
  | .prop _ => [.ident "Prop"]
  | .type _ => [.ident "Type"]
  | .nat _ n => [.nat n]
  | .str _ s => [.str s]
  | .app _ head args => head.tokens ++ args.tokens
  | .lam _ bs body => .lam :: (bs.tokens ++ .fatArrow :: body.tokens)
  | .pi _ bs body => .all :: (bs.tokens ++ .comma :: body.tokens)
  | .arrow _ dom cod => dom.tokens ++ .arrow :: cod.tokens
  | .binary _ op lhs rhs => lhs.tokens ++ op.token :: rhs.tokens
  | .paren _ e => .lparen :: (e.tokens ++ [.rparen])

/-- The tokens of arguments. -/
def Args.tokens : Args → List TokenKind
  | .one a => a.tokens
  | .cons a rest => a.tokens ++ rest.tokens

/-- The tokens of binders, each in parentheses with its type. -/
def Binders.tokens : Binders → List TokenKind
  | .one b t => .lparen :: b.token :: .colon :: (t.tokens ++ [.rparen])
  | .cons b t rest => .lparen :: b.token :: .colon :: (t.tokens ++ .rparen :: rest.tokens)

end

/-! ### Terms without their places in the text -/

/-- No stretch of a text in particular. -/
def Span.nowhere : Span := ⟨0, 0⟩

mutual

/-- A term without the stretches of text that it was read from. -/
def Term.bare : Term → Term
  | .ident _ s => .ident .nowhere s
  | .prop _ => .prop .nowhere
  | .type _ => .type .nowhere
  | .nat _ n => .nat .nowhere n
  | .str _ s => .str .nowhere s
  | .app _ head args => .app .nowhere head.bare args.bare
  | .lam _ bs body => .lam .nowhere bs.bare body.bare
  | .pi _ bs body => .pi .nowhere bs.bare body.bare
  | .arrow _ dom cod => .arrow .nowhere dom.bare cod.bare
  | .binary _ op lhs rhs => .binary .nowhere op lhs.bare rhs.bare
  | .paren _ e => .paren .nowhere e.bare

/-- Arguments without their stretches of text. -/
def Args.bare : Args → Args
  | .one a => .one a.bare
  | .cons a rest => .cons a.bare rest.bare

/-- Binders without their stretches of text. -/
def Binders.bare : Binders → Binders
  | .one b t => .one ⟨.nowhere, b.name⟩ t.bare
  | .cons b t rest => .cons ⟨.nowhere, b.name⟩ t.bare rest.bare

end

/-! ### What may follow a term -/

mutual

/-- Whether a function or a quantification without parentheses stands at the
end of a term. -/
def Term.endsInBinder : Term → Bool
  | .app _ _ args => args.endsInBinder
  | .lam .. | .pi .. => true
  | .arrow _ _ cod => cod.endsInBinder
  | .binary _ _ _ rhs => rhs.endsInBinder
  | _ => false

/-- The same for the last one of some arguments. -/
def Args.endsInBinder : Args → Bool
  | .one a => a.endsInBinder
  | .cons _ rest => rest.endsInBinder

end

/-- Whether a token of grade `g` does not go on with a whole of precedence `p`,
read where a term of precedence `prec` was asked for. -/
def passes (g prec p : Nat) : Bool := g < prec || p < g

mutual

/-- Whether reading a term of precedence at least `prec` ends before a token of
grade `g`, when the term has been read so far.  The level that reads a part
does not go on, and neither does any level of the part's own last part; an
equation does not go on with a further equation sign. -/
def Term.endsBefore (g prec : Nat) : Term → Bool
  | .app _ _ args => passes g prec Precedence.app && args.endsBefore g
  | .lam _ _ body | .pi _ _ body => g < prec && body.endsBefore g Precedence.binder
  | .arrow _ _ cod => passes g prec Precedence.arrow && cod.endsBefore g Precedence.arrow
  | .binary _ op _ rhs =>
    (passes g prec op.precedence || (op = .eq && g = op.precedence)) &&
      rhs.endsBefore g op.rightPrecedence
  | _ => g < prec

/-- The same for the last one of some arguments. -/
def Args.endsBefore (g : Nat) : Args → Bool
  | .one a => a.endsBefore g Precedence.arg
  | .cons _ rest => rest.endsBefore g

end

/-! ### Well-formed terms -/

mutual

/-- Whether a term is well formed and binds at least as tightly as `prec`;
`before g e` tells whether `e` may stand before a token of grade `g`. -/
def Term.fits (before : Nat → Term → Bool) (prec : Nat) : Term → Bool
  | .ident _ s => isIdentifier s && s != "Prop" && s != "Type"
  | .prop _ | .type _ | .nat _ _ | .str _ _ => true
  | .app _ head args =>
    prec ≤ Precedence.app && head.fits before Precedence.arg && before Precedence.app head &&
      args.fit before
  | .lam _ bs body | .pi _ bs body => bs.fit before && body.fits before Precedence.binder
  | .arrow _ dom cod =>
    prec ≤ Precedence.arrow && dom.fits before (Precedence.arrow + 1) &&
      before Precedence.arrow dom && cod.fits before Precedence.arrow
  | .binary _ op lhs rhs =>
    prec ≤ op.precedence && lhs.fits before op.leftGrade && before op.precedence lhs &&
      rhs.fits before op.rightPrecedence
  | .paren _ e => e.fits before Precedence.binder

/-- Whether arguments are well-formed atoms; all but the last one stand before
another. -/
def Args.fit (before : Nat → Term → Bool) : Args → Bool
  | .one a => a.fits before Precedence.arg
  | .cons a rest => a.fits before Precedence.arg && before Precedence.app a && rest.fit before

/-- Whether binders can be written and have well-formed types. -/
def Binders.fit (before : Nat → Term → Bool) : Binders → Bool
  | .one b t => b.isWritable && t.fits before Precedence.binder
  | .cons b t rest => b.isWritable && t.fits before Precedence.binder && rest.fit before

end

/-- Whether no binder without parentheses stands at the end of a term, so that
it may stand before any token. -/
def Term.endsClosed (_g : Nat) (e : Term) : Bool := !e.endsInBinder

/-- Whether a term is one of the grammar: a binder without parentheses extends
as far to the right as the term around it. -/
def Term.isGrammatical (e : Term) : Bool := e.fits Term.endsClosed Precedence.binder

/-- What the reader of operands leaves when a token of grade `g` comes next. -/
def Term.standsBefore (g : Nat) (e : Term) : Bool := e.endsBefore g (g + 1)

/-- Whether a term is one that is read: each part ends where the next one
begins. -/
def Term.isReadable (e : Term) : Bool := e.fits Term.standsBefore Precedence.binder

/-! ### Precedences -/

variable {before : Nat → Term → Bool} {g prec prec' : Nat} {e : Term}

/-- The precedences of tokens that go on with a term. -/
def IsGrade (g : Nat) : Prop := g = 20 ∨ g = 25 ∨ g = 50 ∨ g = 65 ∨ g = 70 ∨ g = 1024

theorem isGrade_of_grade? {k : TokenKind} (h : k.grade? = some g) : IsGrade g := by
  unfold TokenKind.grade? at h
  unfold IsGrade
  split at h
  case h_6 =>
    split at h
    · cases h
      simp
    · cases h
  all_goals
    cases h
    simp

/-- What ends where little is asked for also ends where more is. -/
theorem Term.endsBefore_of_imp (h : e.endsBefore g prec) (hg : g < prec → g < prec') :
    e.endsBefore g prec' := by
  cases e <;> simp only [endsBefore, passes, Bool.and_eq_true, Bool.or_eq_true,
    decide_eq_true_eq] at h ⊢
  case app | lam | pi | arrow => exact ⟨by omega, h.2⟩
  case binary => exact ⟨h.1.imp_left (Or.imp_left hg), h.2⟩
  all_goals exact hg h

mutual

/-- A token goes on with every term of its grade, save that an equation sign
may be left. -/
theorem Term.lt_or_eq_of_endsBefore {g prec : Nat} :
    (e : Term) → e.endsBefore g prec → g < prec ∨ g = 50
  | .app _ _ args, h => by
    simp only [Term.endsBefore, passes, Bool.and_eq_true, Bool.or_eq_true,
      decide_eq_true_eq] at h
    have := args.le_or_eq_of_endsBefore h.2
    simp only [Precedence.app] at h
    omega
  | .lam _ _ body, h | .pi _ _ body, h => by
    simp only [Term.endsBefore, Bool.and_eq_true, decide_eq_true_eq] at h
    exact .inl h.1
  | .arrow _ _ cod, h => by
    simp only [Term.endsBefore, passes, Bool.and_eq_true, Bool.or_eq_true,
      decide_eq_true_eq] at h
    have := cod.lt_or_eq_of_endsBefore h.2
    simp only [Precedence.arrow] at h this
    omega
  | .binary _ op _ rhs, h => by
    simp only [Term.endsBefore, passes, Bool.and_eq_true, Bool.or_eq_true,
      decide_eq_true_eq] at h
    have := rhs.lt_or_eq_of_endsBefore h.2
    cases op <;> simp [Operator.precedence, Operator.rightPrecedence] at h this <;> omega
  | .ident .., h | .prop _, h | .type _, h | .nat .., h | .str .., h | .paren .., h => by
    simp only [Term.endsBefore, decide_eq_true_eq] at h
    exact .inl h

/-- The last argument is an atom. -/
theorem Args.le_or_eq_of_endsBefore {g : Nat} :
    (args : Args) → args.endsBefore g → g ≤ 1024 ∨ g = 50
  | .one a, h => by
    have := a.lt_or_eq_of_endsBefore h
    simp only [Precedence.arg] at this
    omega
  | .cons _ rest, h => rest.le_or_eq_of_endsBefore h

end

/-- Whether reading `e` at precedence `prec` ends before a token. -/
def Term.EndsAt (prec : Nat) (e : Term) (k : TokenKind) : Prop :=
  ∀ g, k.grade? = some g → e.endsBefore g prec

theorem Term.EndsAt.mono {k : TokenKind} (h : e.EndsAt prec k) (hprec : prec ≤ prec') :
    e.EndsAt prec' k :=
  fun g hg => endsBefore_of_imp (h g hg) (by omega)

/-- Nothing goes on before a token that goes on with no term. -/
theorem Term.endsAt_of_grade?_eq_none {k : TokenKind} (h : k.grade? = none) : e.EndsAt prec k :=
  fun _ hg => absurd (h.symm.trans hg) (by simp)

/-- A token that goes on with terms of a tighter kind than is asked for does go
on, unless it is an equation sign. -/
theorem Term.EndsAt.lt {k : TokenKind} (h : e.EndsAt prec k) (hg : k.grade? = some g) :
    g < prec ∨ g = 50 :=
  e.lt_or_eq_of_endsBefore (h g hg)

/-- How tightly a term binds. -/
def Term.precedence : Term → Nat
  | .app .. => Precedence.app
  | .arrow .. => Precedence.arrow
  | .binary _ op .. => op.precedence
  | _ => Precedence.arg

theorem Term.precedence_cases (e : Term) : IsGrade e.precedence ∨ e.precedence = 1025 := by
  cases e with
  | app => exact .inl (by simp [precedence, IsGrade, Precedence.app])
  | arrow => exact .inl (by simp [precedence, IsGrade, Precedence.arrow])
  | binary _ op => exact .inl (by cases op <;> simp [precedence, IsGrade, Operator.precedence])
  | _ => exact .inr rfl

theorem Term.precedence_eq_arrow (h : e.precedence = Precedence.arrow) :
    ∃ s dom cod, e = .arrow s dom cod := by
  cases e with
  | arrow s dom cod => exact ⟨s, dom, cod, rfl⟩
  | binary _ op => cases op <;> cases h
  | _ => cases h

theorem Term.precedence_eq_app (h : e.precedence = Precedence.app) :
    ∃ s head args, e = .app s head args := by
  cases e with
  | app s head args => exact ⟨s, head, args, rfl⟩
  | binary _ op => cases op <;> cases h
  | _ => cases h

theorem Term.precedence_eq_operator {op : Operator} (h : e.precedence = op.precedence) :
    ∃ s lhs rhs, e = .binary s op lhs rhs := by
  cases e with
  | binary s op' lhs rhs =>
    have hop : op' = op := by cases op <;> cases op' <;> first | rfl | cases h
    exact ⟨s, lhs, rhs, hop ▸ rfl⟩
  | _ => cases op <;> cases h

/-- Whether a term fits depends on its own precedence only. -/
theorem Term.fits_of_imp (h : e.fits before prec)
    (hprec : prec ≤ e.precedence → prec' ≤ e.precedence) : e.fits before prec' := by
  cases e <;> simp only [fits, precedence, Bool.and_eq_true, decide_eq_true_eq] at h hprec ⊢
  case app | arrow | binary => exact ⟨⟨⟨hprec h.1.1.1, h.1.1.2⟩, h.1.2⟩, h.2⟩
  all_goals exact h

theorem Term.fits_mono (h : e.fits before prec) (hprec : prec' ≤ prec) : e.fits before prec' :=
  fits_of_imp h (Nat.le_trans hprec)

theorem Term.le_precedence (h : e.fits before prec) :
    prec ≤ e.precedence ∨ e.precedence = 1025 := by
  cases e <;> simp only [fits, precedence, Bool.and_eq_true, decide_eq_true_eq] at h ⊢
  case app | arrow | binary => exact .inl h.1.1.1
  all_goals exact .inr rfl

/-- A token goes on with every term that is tighter than it. -/
theorem Term.not_endsBefore (hprec : prec ≤ g) (hg : g < e.precedence) :
    ¬e.endsBefore g prec := by
  intro h
  cases e <;> simp only [endsBefore, passes, precedence, Bool.and_eq_true, Bool.or_eq_true,
    decide_eq_true_eq] at h hg
  case binary => omega
  all_goals omega

/-- The first token of a term begins an atom. -/
theorem Term.exists_tokens_eq_cons : (e : Term) → ∃ k ks, e.tokens = k :: ks ∧ k.startsAtom
  | .ident _ s => ⟨_, _, rfl, rfl⟩
  | .prop _ => ⟨_, _, rfl, rfl⟩
  | .type _ => ⟨_, _, rfl, rfl⟩
  | .nat _ _ => ⟨_, _, rfl, rfl⟩
  | .str _ _ => ⟨_, _, rfl, rfl⟩
  | .lam _ _ _ => ⟨_, _, rfl, rfl⟩
  | .pi _ _ _ => ⟨_, _, rfl, rfl⟩
  | .paren _ _ => ⟨_, _, rfl, rfl⟩
  | .app _ head _ | .arrow _ head _ | .binary _ _ head _ => by
    obtain ⟨k, ks, heq, hk⟩ := head.exists_tokens_eq_cons
    exact ⟨k, _, by rw [tokens, heq, List.cons_append], hk⟩

theorem grade?_of_startsAtom {k : TokenKind} (h : k.startsAtom) : k.grade? = some 1024 := by
  cases k <;> first | rfl | cases h

theorem startsAtom_of_grade? {k : TokenKind} (h : k.grade? = some 1024) : k.startsAtom := by
  cases k <;> first | rfl | cases h

theorem grade?_token (op : Operator) : op.token.grade? = some op.precedence := by
  cases op <;> rfl

/-! ### Terms that end in a binder -/

mutual

/-- What ends in a binder goes on with all but an equation sign. -/
theorem Term.eq_of_endsBefore_of_endsInBinder {g prec : Nat} :
    (e : Term) → e.endsInBinder → e.endsBefore g prec → g = 50
  | .app _ _ args, hend, h => by
    simp only [Term.endsBefore, Bool.and_eq_true] at h
    exact args.eq_of_endsBefore_of_endsInBinder hend h.2
  | .lam _ _ body, _, h | .pi _ _ body, _, h => by
    simp only [Term.endsBefore, Precedence.binder, Bool.and_eq_true] at h
    simpa using body.lt_or_eq_of_endsBefore h.2
  | .arrow _ _ cod, hend, h => by
    simp only [Term.endsBefore, Bool.and_eq_true] at h
    exact cod.eq_of_endsBefore_of_endsInBinder hend h.2
  | .binary _ _ _ rhs, hend, h => by
    simp only [Term.endsBefore, Bool.and_eq_true] at h
    exact rhs.eq_of_endsBefore_of_endsInBinder hend h.2
  | .ident .., hend, _ | .prop _, hend, _ | .type _, hend, _ | .nat .., hend, _
  | .str .., hend, _ | .paren .., hend, _ => nomatch hend

theorem Args.eq_of_endsBefore_of_endsInBinder {g : Nat} :
    (args : Args) → args.endsInBinder → args.endsBefore g → g = 50
  | .one a, hend, h => a.eq_of_endsBefore_of_endsInBinder hend h
  | .cons _ rest, hend, h => rest.eq_of_endsBefore_of_endsInBinder hend h

end

mutual

/-- What ends in no binder ends before each token that is looser than itself. -/
theorem Term.endsBefore_of_fits {g prec : Nat} (hg : g ≤ 1024) (hprec : g < prec) :
    (e : Term) → e.endsInBinder = false → e.fits before (g + 1) → e.endsBefore g prec
  | .app _ _ args, hend, h => by
    simp only [Term.fits, Bool.and_eq_true] at h
    simp only [Term.endsBefore, passes, Bool.and_eq_true, Bool.or_eq_true, decide_eq_true_eq]
    exact ⟨.inl hprec, args.endsBefore_of_fit hg hend h.2⟩
  | .arrow _ _ cod, hend, h => by
    simp only [Term.fits, Bool.and_eq_true, decide_eq_true_eq] at h
    simp only [Term.endsBefore, passes, Bool.and_eq_true, Bool.or_eq_true, decide_eq_true_eq]
    exact ⟨.inl hprec, cod.endsBefore_of_fits hg h.1.1.1 hend (cod.fits_mono h.2 h.1.1.1)⟩
  | .binary _ op _ rhs, hend, h => by
    simp only [Term.fits, Bool.and_eq_true, decide_eq_true_eq] at h
    simp only [Term.endsBefore, passes, Bool.and_eq_true, Bool.or_eq_true, decide_eq_true_eq]
    have hop : op.precedence < op.rightPrecedence := by cases op <;> decide
    exact ⟨.inl (.inl hprec),
      rhs.endsBefore_of_fits hg (by omega) hend (rhs.fits_mono h.2 (by omega))⟩
  | .lam .., hend, _ | .pi .., hend, _ => nomatch hend
  | .ident .., _, _ | .prop _, _, _ | .type _, _, _ | .nat .., _, _ | .str .., _, _
  | .paren .., _, _ => by simpa only [Term.endsBefore, decide_eq_true_eq] using hprec

theorem Args.endsBefore_of_fit {g : Nat} (hg : g ≤ 1024) :
    (args : Args) → args.endsInBinder = false → args.fit before → args.endsBefore g
  | .one a, hend, h =>
    a.endsBefore_of_fits hg (by simp only [Precedence.arg]; omega) hend
      (a.fits_mono h (by simp only [Precedence.arg]; omega))
  | .cons _ rest, hend, h => by
    simp only [Args.fit, Bool.and_eq_true] at h
    exact rest.endsBefore_of_fit hg hend h.2

end

/-! ### The two kinds of well-formed terms -/

/-- The places of left operands: how tight they have to be before a token of
grade `g`. -/
inductive LeftPlace : Nat → Nat → Prop
  | app : LeftPlace Precedence.app Precedence.arg
  | arrow : LeftPlace Precedence.arrow (Precedence.arrow + 1)
  | operator (op : Operator) : LeftPlace op.precedence op.leftGrade

theorem LeftPlace.le {q : Nat} (h : LeftPlace g q) : g ≤ 1024 ∧ g ≤ q := by
  cases h with
  | app | arrow => decide
  | operator op => cases op <;> decide

/-- Whether all may stand before an operand that may do so in two senses. -/
def Combines (before₁ before₂ before₃ : Nat → Term → Bool) : Prop :=
  ∀ g q e, LeftPlace g q → e.fits before₁ q → before₁ g e → before₂ g e → before₃ g e

variable {before₁ before₂ before₃ : Nat → Term → Bool}

mutual

/-- What is well formed in two senses is so in a third one, if what may stand
before an operand in both of them may do so in that. -/
theorem Term.fits_of_fits (h : Combines before₁ before₂ before₃) {prec : Nat} :
    (e : Term) → e.fits before₁ prec → e.fits before₂ prec → e.fits before₃ prec
  | .app _ head args, h₁, h₂ => by
    simp only [Term.fits, Bool.and_eq_true] at h₁ h₂ ⊢
    exact ⟨⟨⟨h₁.1.1.1, head.fits_of_fits h h₁.1.1.2 h₂.1.1.2⟩,
      h _ _ _ .app h₁.1.1.2 h₁.1.2 h₂.1.2⟩, args.fit_of_fit h h₁.2 h₂.2⟩
  | .lam _ bs body, h₁, h₂ | .pi _ bs body, h₁, h₂ => by
    simp only [Term.fits, Bool.and_eq_true] at h₁ h₂ ⊢
    exact ⟨bs.fit_of_fit h h₁.1 h₂.1, body.fits_of_fits h h₁.2 h₂.2⟩
  | .arrow _ dom cod, h₁, h₂ => by
    simp only [Term.fits, Bool.and_eq_true] at h₁ h₂ ⊢
    exact ⟨⟨⟨h₁.1.1.1, dom.fits_of_fits h h₁.1.1.2 h₂.1.1.2⟩,
      h _ _ _ .arrow h₁.1.1.2 h₁.1.2 h₂.1.2⟩, cod.fits_of_fits h h₁.2 h₂.2⟩
  | .binary _ op lhs rhs, h₁, h₂ => by
    simp only [Term.fits, Bool.and_eq_true] at h₁ h₂ ⊢
    exact ⟨⟨⟨h₁.1.1.1, lhs.fits_of_fits h h₁.1.1.2 h₂.1.1.2⟩,
      h _ _ _ (.operator op) h₁.1.1.2 h₁.1.2 h₂.1.2⟩, rhs.fits_of_fits h h₁.2 h₂.2⟩
  | .paren _ e, h₁, h₂ => e.fits_of_fits h h₁ h₂
  | .ident .., h₁, _ => h₁
  | .prop _, _, _ | .type _, _, _ | .nat .., _, _ | .str .., _, _ => rfl

theorem Args.fit_of_fit (h : Combines before₁ before₂ before₃) :
    (args : Args) → args.fit before₁ → args.fit before₂ → args.fit before₃
  | .one a, h₁, h₂ => a.fits_of_fits h h₁ h₂
  | .cons a rest, h₁, h₂ => by
    simp only [Args.fit, Bool.and_eq_true] at h₁ h₂ ⊢
    exact ⟨⟨a.fits_of_fits h h₁.1.1 h₂.1.1, h _ _ _ .app h₁.1.1 h₁.1.2 h₂.1.2⟩,
      rest.fit_of_fit h h₁.2 h₂.2⟩

theorem Binders.fit_of_fit (h : Combines before₁ before₂ before₃) :
    (bs : Binders) → bs.fit before₁ → bs.fit before₂ → bs.fit before₃
  | .one b t, h₁, h₂ => by
    simp only [Binders.fit, Bool.and_eq_true] at h₁ h₂ ⊢
    exact ⟨h₁.1, t.fits_of_fits h h₁.2 h₂.2⟩
  | .cons b t rest, h₁, h₂ => by
    simp only [Binders.fit, Bool.and_eq_true] at h₁ h₂ ⊢
    exact ⟨⟨h₁.1.1, t.fits_of_fits h h₁.1.2 h₂.1.2⟩, rest.fit_of_fit h h₁.2 h₂.2⟩

end

/-- An operand is tighter than its operator or an operation of the same
operator. -/
theorem Term.fits_succ_or_eq_binary {op : Operator} (h : e.fits before op.precedence) :
    e.fits before (op.precedence + 1) ∨ ∃ s lhs rhs, e = .binary s op lhs rhs := by
  by_cases heq : e.precedence = op.precedence
  · exact .inr (precedence_eq_operator heq)
  · exact .inl (fits_of_imp h (by omega))

/-- A left operand that ends in no binder ends before its operator. -/
theorem Term.standsBefore_of_fits {q : Nat} (hplace : LeftPlace g q)
    (hend : e.endsInBinder = false) (hfits : e.fits before q) : e.standsBefore g := by
  have hg := hplace.le
  cases hplace with
  | app | arrow => exact e.endsBefore_of_fits hg.1 (Nat.lt_succ_self _) hend hfits
  | operator op =>
    rcases fits_succ_or_eq_binary (e.fits_mono hfits hg.2) with hfits | ⟨s, lhs, rhs, rfl⟩
    · exact e.endsBefore_of_fits hg.1 (Nat.lt_succ_self _) hend hfits
    · have hop : op.precedence + 1 = op.rightPrecedence := by cases op <;> rfl
      simp only [fits, Bool.and_eq_true] at hfits
      simp only [standsBefore, endsBefore, passes, Bool.and_eq_true, Bool.or_eq_true,
        decide_eq_true_eq]
      exact ⟨.inl (.inl (Nat.lt_succ_self _)),
        rhs.endsBefore_of_fits hg.1 (by omega) hend (hop ▸ hfits.2)⟩

/-- Whether no left side of an equation ends in a binder. -/
def Term.equatesNoBinder (e : Term) : Bool :=
  e.fits (fun g e => g != Operator.eq.precedence || !e.endsInBinder) Precedence.binder

/-- The grammar and what is read differ in the left sides of equations. -/
theorem Term.isGrammatical_iff : e.isGrammatical ↔ e.isReadable ∧ e.equatesNoBinder := by
  constructor
  · intro h
    refine ⟨e.fits_of_fits ?_ h h, e.fits_of_fits ?_ h h⟩
    · intro g q e hplace hfits hend _
      exact standsBefore_of_fits hplace (by simpa [endsClosed] using hend) hfits
    · intro g q e _ _ hend _
      rw [Bool.or_eq_true]
      exact .inr hend
  · rintro ⟨hread, heq⟩
    refine e.fits_of_fits ?_ hread heq
    intro g q e _ _ hstands hbinder
    by_cases hend : e.endsInBinder
    · have := e.eq_of_endsBefore_of_endsInBinder hend hstands
      simp [this, Operator.precedence, hend] at hbinder
    · simpa [endsClosed] using hend

end Surface

end Pinpoint
