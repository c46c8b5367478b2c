import Mathlib.Data.List.DropRight
import PageDesign.Text.Lead

/-! # Grammars whose alternatives are tried in order

A grammar gives each of its rules one expression.  Alternatives are tried in order and the
first that matches is taken for good; a repetition takes as much as it can; a negation looks
ahead and takes nothing.  Separators may stand between the parts of a rule, except inside of
rules that are read in one piece.

What an expression makes of a text is a relation (`Derives`) between the text and an outcome:
a refusal, or the tokens that were made out with what is left behind them.  There is never
more than one outcome (`Derives.unique`), and nothing is left but an end of the text
(`Derives.suffix`).

The last section is about expressions that take one character at a time, and how far
repetitions of them go (`TakesOne`).
-/
namespace PageDesign.Peg
open Text

/-- An expression over the rules of a grammar. -/
inductive Expr (R : Type) where
  /-- Just these characters. -/
  | mark (lead : List Char)
  /-- One character with a property. -/
  | one (p : Char → Bool)
  /-- Nothing, at the beginning of the whole text. -/
  | start
  /-- Nothing, at the end of the text. -/
  | finish
  /-- Separators, as many as there are. -/
  | gap
  /-- What a rule stands for. -/
  | rule (r : R)
  /-- One expression and then another, with nothing between them. -/
  | cat (a b : Expr R)
  /-- One expression or else another. -/
  | alt (a b : Expr R)
  /-- An expression as often as it matches, with nothing between. -/
  | rep (a : Expr R)
  /-- Nothing, where an expression does not match. -/
  | not (a : Expr R)

namespace Expr
variable {R : Type}

/-- Expressions one after another, with separators between them. -/
def seq : List (Expr R) → Expr R
  | [] => mark []
  | [a] => a
  | a :: b :: rest => cat a (cat gap (seq (b :: rest)))

/-- The first of some expressions that matches. -/
def choice : List (Expr R) → Expr R
  | [] => not (mark [])
  | [a] => a
  | a :: b :: rest => alt a (choice (b :: rest))

/-- An expression or nothing. -/
def optional (a : Expr R) : Expr R := alt a (mark [])

/-- An expression as often as it matches, with separators between. -/
def many (a : Expr R) : Expr R := optional (cat a (rep (cat gap a)))

/-- An expression once or more often, with separators between. -/
def more (a : Expr R) : Expr R := seq [a, many a]

end Expr

/-- How an expression is read. -/
inductive Mode where
  /-- Separators may stand between the parts. -/
  | loose
  /-- No separators are skipped. -/
  | tight
  /-- No separators are skipped, and rules leave no tokens. -/
  | atomic
  deriving DecidableEq

/-- What a rule changes about reading. -/
inductive Kind where
  /-- Its expression is read like everything around it. -/
  | plain
  /-- Like a plain rule, but it leaves no token of its own. -/
  | silent
  /-- Its expression is read without separators. -/
  | compound
  /-- Its expression is read without separators, and no tokens are made out in it. -/
  | atomic

namespace Kind

/-- How the expression of a rule is read. -/
def within : Kind → Mode → Mode
  | plain, m => m
  | silent, m => m
  | compound, _ => .tight
  | atomic, _ => .atomic

/-- Whether a rule leaves a token. -/
def isKept : Kind → Mode → Bool
  | silent, _ => false
  | compound, _ => true
  | _, m => m ≠ .atomic

end Kind

/-- A grammar: what separates tokens, and the kind and the expression of each rule. -/
structure Grammar (R : Type) where
  separator : Char → Bool
  kind : R → Kind
  body : R → Expr R

/-- What a rule was matched by: the text, how many characters were left at its beginning, and
the tokens in it. -/
inductive Token (R : Type) where
  | mk (rule : R) (text : List Char) (left : Nat) (inner : List (Token R))

namespace Token
variable {R : Type}

def rule : Token R → R
  | mk r _ _ _ => r

def text : Token R → List Char
  | mk _ t _ _ => t

def left : Token R → Nat
  | mk _ _ l _ => l

def inner : Token R → List (Token R)
  | mk _ _ _ i => i

end Token

/-- A refusal, or the tokens made out and what is left behind them. -/
abbrev Outcome (R : Type) : Type := Option (List (Token R) × List Char)

namespace Grammar
variable {R : Type} (g : Grammar R)

/-- What is left of a text behind the separators that may be skipped. -/
def skip : Mode → List Char → List Char
  | .loose, s => s.dropWhile g.separator
  | _, s => s

/-- The tokens that a rule leaves. -/
def leave (m : Mode) (r : R) (text : List Char) (left : Nat) (inner : List (Token R)) :
    List (Token R) :=
  if (g.kind r).isKept m then [.mk r text left inner] else inner

end Grammar

open Peg.Expr in
/-- What an expression makes of a text `s` that is left of the text `whole`. -/
inductive Derives {R : Type} (g : Grammar R) (whole : List Char) :
    Mode → Expr R → List Char → Outcome R → Prop
  | mark {m lead s rest} (h : after? lead s = some rest) :
      Derives g whole m (mark lead) s (some ([], rest))
  | mark_none {m lead s} (h : after? lead s = none) : Derives g whole m (mark lead) s none
  | one {m p c s} (h : p c = true) : Derives g whole m (one p) (c :: s) (some ([], s))
  | one_none {m p s} (h : ∀ c ∈ s.head?, p c = false) : Derives g whole m (one p) s none
  | start {m s} (h : s = whole) : Derives g whole m start s (some ([], s))
  | start_none {m s} (h : s ≠ whole) : Derives g whole m start s none
  | finish {m s} (h : s = []) : Derives g whole m finish s (some ([], s))
  | finish_none {m s} (h : s ≠ []) : Derives g whole m finish s none
  | gap {m s} : Derives g whole m gap s (some ([], g.skip m s))
  | rule {m r s text rest inner} (hb : Derives g whole ((g.kind r).within m) (g.body r) s
      (some (inner, rest))) (hs : s = text ++ rest) :
      Derives g whole m (rule r) s (some (g.leave m r text s.length inner, rest))
  | rule_none {m r s} (hb : Derives g whole ((g.kind r).within m) (g.body r) s none) :
      Derives g whole m (rule r) s none
  | cat {m a b s x t y u} (ha : Derives g whole m a s (some (x, t)))
      (hb : Derives g whole m b t (some (y, u))) :
      Derives g whole m (cat a b) s (some (x ++ y, u))
  | cat_none_left {m a b s} (ha : Derives g whole m a s none) :
      Derives g whole m (cat a b) s none
  | cat_none_right {m a b s x t} (ha : Derives g whole m a s (some (x, t)))
      (hb : Derives g whole m b t none) : Derives g whole m (cat a b) s none
  | alt_left {m a b s out} (ha : Derives g whole m a s (some out)) :
      Derives g whole m (alt a b) s (some out)
  | alt_right {m a b s out} (ha : Derives g whole m a s none) (hb : Derives g whole m b s out) :
      Derives g whole m (alt a b) s out
  | rep_stop {m a s} (ha : Derives g whole m a s none) :
      Derives g whole m (rep a) s (some ([], s))
  | rep_more {m a s x t y u} (ha : Derives g whole m a s (some (x, t)))
      (hr : Derives g whole m (rep a) t (some (y, u))) :
      Derives g whole m (rep a) s (some (x ++ y, u))
  | not {m a s} (ha : Derives g whole m a s none) : Derives g whole m (not a) s (some ([], s))
  | not_none {m a s out} (ha : Derives g whole m a s (some out)) :
      Derives g whole m (not a) s none

variable {R : Type} {g : Grammar R} {whole : List Char} {m : Mode} {a b e : Expr R}
  {s t rest : List Char} {x y : List (Token R)}

/-- **An expression has one outcome on a text.** -/
theorem Derives.unique {out out' : Outcome R} (h : Derives g whole m e s out)
    (h' : Derives g whole m e s out') : out = out' := by
  induction h generalizing out' with
  | mark h | mark_none h => cases h' <;> simp_all
  | one h | one_none h => cases h' <;> simp_all
  | start h | start_none h | finish h | finish_none h => cases h' <;> simp_all
  | gap => cases h'; rfl
  | rule _ hs ih =>
    cases h' with
    | rule hb hs' =>
      obtain ⟨rfl, rfl⟩ := Prod.mk.inj (Option.some.inj (ih hb))
      rw [List.append_cancel_right (hs.symm.trans hs')]
    | rule_none hb => cases ih hb
  | rule_none _ ih =>
    cases h' with
    | rule hb _ => cases ih hb
    | rule_none _ => rfl
  | cat _ _ iha ihb =>
    cases h' with
    | cat ha hb =>
      obtain ⟨rfl, rfl⟩ := Prod.mk.inj (Option.some.inj (iha ha))
      obtain ⟨rfl, rfl⟩ := Prod.mk.inj (Option.some.inj (ihb hb))
      rfl
    | cat_none_left ha => cases iha ha
    | cat_none_right ha hb =>
      obtain ⟨rfl, rfl⟩ := Prod.mk.inj (Option.some.inj (iha ha))
      cases ihb hb
  | cat_none_left _ iha =>
    cases h' with
    | cat ha _ | cat_none_right ha _ => cases iha ha
    | cat_none_left _ => rfl
  | cat_none_right _ _ iha ihb =>
    cases h' with
    | cat ha hb =>
      obtain ⟨rfl, rfl⟩ := Prod.mk.inj (Option.some.inj (iha ha))
      cases ihb hb
    | cat_none_left _ | cat_none_right _ _ => rfl
  | alt_left _ ih =>
    cases h' with
    | alt_left ha => exact ih ha
    | alt_right ha _ => cases ih ha
  | alt_right _ _ iha ihb =>
    cases h' with
    | alt_left ha => cases iha ha
    | alt_right _ hb => exact ihb hb
  | rep_stop _ ih =>
    cases h' with
    | rep_stop _ => rfl
    | rep_more ha _ => cases ih ha
  | rep_more _ _ iha ihr =>
    cases h' with
    | rep_stop ha => cases iha ha
    | rep_more ha hr =>
      obtain ⟨rfl, rfl⟩ := Prod.mk.inj (Option.some.inj (iha ha))
      obtain ⟨rfl, rfl⟩ := Prod.mk.inj (Option.some.inj (ihr hr))
      rfl
  | not _ ih =>
    cases h' with
    | not _ => rfl
    | not_none ha => cases ih ha
  | not_none _ ih =>
    cases h' with
    | not ha => cases ih ha
    | not_none _ => rfl

theorem Grammar.skip_suffix (g : Grammar R) (m : Mode) (s : List Char) : g.skip m s <:+ s := by
  cases m with
  | loose => exact List.dropWhile_suffix _
  | tight | atomic => exact List.suffix_rfl

/-- **What is left of a text is an end of it.** -/
theorem Derives.suffix (h : Derives g whole m e s (some (x, rest))) : rest <:+ s := by
  generalize hout : some (x, rest) = out at h
  induction h generalizing x rest with
  | mark h =>
    obtain ⟨-, rfl⟩ := Prod.mk.inj (Option.some.inj hout)
    exact ⟨_, (after?_eq_some_iff.mp h).symm⟩
  | one _ =>
    obtain ⟨-, rfl⟩ := Prod.mk.inj (Option.some.inj hout)
    exact List.suffix_cons _ _
  | start _ | finish _ | rep_stop _ | not _ =>
    obtain ⟨-, rfl⟩ := Prod.mk.inj (Option.some.inj hout)
    exact List.suffix_rfl
  | gap =>
    obtain ⟨-, rfl⟩ := Prod.mk.inj (Option.some.inj hout)
    exact g.skip_suffix _ _
  | rule _ hs =>
    obtain ⟨-, rfl⟩ := Prod.mk.inj (Option.some.inj hout)
    exact ⟨_, hs.symm⟩
  | cat _ _ iha ihb | rep_more _ _ iha ihb =>
    obtain ⟨-, rfl⟩ := Prod.mk.inj (Option.some.inj hout)
    exact (ihb rfl).trans (iha rfl)
  | alt_left _ ih => exact ih hout
  | alt_right _ _ _ ih => exact ih hout
  | mark_none | one_none | start_none | finish_none | rule_none | cat_none_left
  | cat_none_right | not_none => cases hout

/-- A rule whose expression matches is matched by what the expression takes. -/
theorem Derives.exists_rule {r : R} (h : Derives g whole ((g.kind r).within m) (g.body r) s
    (some (x, rest))) : ∃ text, s = text ++ rest ∧
      Derives g whole m (.rule r) s (some (g.leave m r text s.length x, rest)) := by
  obtain ⟨text, hs⟩ := h.suffix
  exact ⟨text, hs.symm, .rule h hs.symm⟩

/-! ## Sequences and repetitions -/

section Sequences
variable {l : List (Expr R)}

theorem Derives.seq_cons (ha : Derives g whole m a s (some (x, t)))
    (hl : Derives g whole m (.seq (b :: l)) (g.skip m t) (some (y, rest))) :
    Derives g whole m (.seq (a :: b :: l)) s (some (x ++ y, rest)) :=
  .cat ha (.cat .gap hl)

theorem Derives.seq_none_head (ha : Derives g whole m a s none) :
    Derives g whole m (.seq (a :: b :: l)) s none :=
  .cat_none_left ha

theorem Derives.seq_none_tail (ha : Derives g whole m a s (some (x, t)))
    (hl : Derives g whole m (.seq (b :: l)) (g.skip m t) none) :
    Derives g whole m (.seq (a :: b :: l)) s none :=
  .cat_none_right ha (.cat_none_right .gap hl)

theorem Derives.optional (h : Derives g whole m a s (some (x, rest))) :
    Derives g whole m (.optional a) s (some (x, rest)) :=
  .alt_left h

theorem Derives.optional_none (h : Derives g whole m a s none) :
    Derives g whole m (.optional a) s (some ([], s)) :=
  .alt_right h (.mark rfl)

theorem Grammar.skip_skip (g : Grammar R) (m : Mode) (s : List Char) :
    g.skip m (g.skip m s) = g.skip m s := by
  cases m with
  | loose => exact List.dropWhile_idempotent _ _
  | tight | atomic => rfl

/-- A repetition may as well begin behind the separators, if what is left is only looked at
behind them. -/
theorem Derives.many (h : Derives g whole m (.rep (.cat .gap a)) s (some (x, rest))) :
    ∃ rest', g.skip m rest' = g.skip m rest ∧
      Derives g whole m (.many a) (g.skip m s) (some (x, rest')) := by
  cases h with
  | rep_stop ha =>
    refine ⟨g.skip m s, g.skip_skip m s, .optional_none (.cat_none_left ?_)⟩
    cases ha with
    | cat_none_left hg => cases hg
    | cat_none_right hg ha =>
      cases hg
      exact ha
  | rep_more ha hr =>
    refine ⟨rest, rfl, .optional ?_⟩
    cases ha with
    | cat hg ha =>
      cases hg
      exact .cat ha hr

end Sequences

/-! ## One character at a time -/

/-- The rest of a text from the first place at which `p` does not hold of a character and what
follows it. -/
def dropRun (p : Char → List Char → Bool) : List Char → List Char
  | [] => []
  | c :: s => if p c s then dropRun p s else c :: s

theorem dropRun_eq_dropWhile (p : Char → Bool) (s : List Char) :
    dropRun (fun c _ => p c) s = s.dropWhile p := by
  induction s with
  | nil => rfl
  | cons c s ih => rw [dropRun, ih, List.dropWhile_cons]

/-- An expression inside of an atomic rule that takes one character where `p` holds of it and
of what follows, and matches nowhere else. -/
structure TakesOne (g : Grammar R) (whole : List Char) (e : Expr R)
    (p : Char → List Char → Bool) : Prop where
  refuse_nil : Derives g whole .atomic e [] none
  take {c : Char} {s : List Char} (h : p c s = true) :
    Derives g whole .atomic e (c :: s) (some ([], s))
  refuse {c : Char} {s : List Char} (h : p c s = false) : Derives g whole .atomic e (c :: s) none

namespace TakesOne
variable {p q : Char → List Char → Bool}

theorem one (p : Char → Bool) : TakesOne g whole (.one p) fun c _ => p c where
  refuse_nil := .one_none (by simp)
  take h := .one h
  refuse h := .one_none (by simpa using h)

theorem mark (d : Char) : TakesOne g whole (.mark [d]) fun c _ => c == d where
  refuse_nil := .mark_none rfl
  take {c s} h := .mark (by rw [after?, if_pos (beq_iff_eq.mp h).symm, after?])
  refuse {c s} h := .mark_none (by rw [after?, if_neg (Ne.symm (beq_eq_false_iff_ne.mp h))])

theorem alt (ha : TakesOne g whole a p) (hb : TakesOne g whole b q) :
    TakesOne g whole (.alt a b) fun c s => p c s || q c s where
  refuse_nil := .alt_right ha.refuse_nil hb.refuse_nil
  take {c s} h := by
    cases hp : p c s with
    | true => exact .alt_left (ha.take hp)
    | false => exact .alt_right (ha.refuse hp) (hb.take (by simpa [hp] using h))
  refuse {c s} h := by
    obtain ⟨hp, hq⟩ := Bool.or_eq_false_iff.mp h
    exact .alt_right (ha.refuse hp) (hb.refuse hq)

/-- Any character but those before which an expression matches. -/
theorem except (hn : Derives g whole .atomic a [] none)
    (ht : ∀ c s, p c s = true → ∃ out, Derives g whole .atomic a (c :: s) (some out))
    (hf : ∀ c s, p c s = false → Derives g whole .atomic a (c :: s) none) :
    TakesOne g whole (.seq [.not a, .one fun _ => true]) fun c s => !p c s where
  refuse_nil := .seq_none_tail (.not hn) (.one_none (by simp [Grammar.skip]))
  take h := .seq_cons (.not (hf _ _ (by simpa using h))) (.one rfl)
  refuse h := by
    obtain ⟨out, ha⟩ := ht _ _ (by simpa using h)
    exact .seq_none_head (.not_none ha)

theorem except_one (ha : TakesOne g whole a p) :
    TakesOne g whole (.seq [.not a, .one fun _ => true]) fun c s => !p c s :=
  except ha.refuse_nil (fun _ _ h => ⟨_, ha.take h⟩) fun _ _ h => ha.refuse h

theorem rep (h : TakesOne g whole a p) (s : List Char) :
    Derives g whole .atomic (.rep (.cat .gap a)) s (some ([], dropRun p s)) := by
  induction s with
  | nil => exact .rep_stop (.cat_none_right .gap h.refuse_nil)
  | cons c s ih =>
    rw [dropRun]
    cases hp : p c s with
    | true => exact .rep_more (.cat .gap (h.take hp)) ih
    | false => exact .rep_stop (.cat_none_right .gap (h.refuse hp))

/-- A repetition goes as far as `p` holds. -/
theorem many (h : TakesOne g whole a p) (s : List Char) :
    Derives g whole .atomic (.many a) s (some ([], dropRun p s)) := by
  obtain ⟨_, rfl, hm⟩ := (h.rep s).many
  exact hm

/-- Once or more often: `p` has to hold at the front. -/
theorem more {c : Char} (h : TakesOne g whole a p) (hp : p c s = true) :
    Derives g whole .atomic (.more a) (c :: s) (some ([], dropRun p (c :: s))) := by
  rw [dropRun, if_pos hp]
  exact .seq_cons (h.take hp) (h.many s)

theorem more_none (h : TakesOne g whole a p) (hp : ∀ c s', s = c :: s' → p c s' = false) :
    Derives g whole .atomic (.more a) s none := by
  cases s with
  | nil => exact .seq_none_head h.refuse_nil
  | cons c s => exact .seq_none_head (h.refuse (hp c s rfl))

end TakesOne
end PageDesign.Peg
