import IntLang.Proofs.Identifiers
import IntLang.Tree.Printer

/-! The parenthesised form of a syntax tree determines the tree. The form is the text of nested lists
of words, which are known from their text, and different trees have different lists. -/
namespace IntLang

inductive Sexp where
  | word (w : String)
  | list (xs : List Sexp)

namespace Sexp

mutual

def text : Sexp → List Char
  | word w => w.toList
  | list xs => '(' :: texts [] xs

/-- The rest of a list up to its end, with what goes before the first element. -/
def texts (before : List Char) : List Sexp → List Char
  | [] => [')']
  | x :: xs => before ++ x.text ++ texts [' '] xs

end

mutual

def Plain : Sexp → Prop
  | word w => Unbroken w
  | list xs => AllPlain xs

def AllPlain : List Sexp → Prop
  | [] => True
  | x :: xs => x.Plain ∧ AllPlain xs

end

theorem allPlain_append {xs ys : List Sexp} : AllPlain (xs ++ ys) ↔ AllPlain xs ∧ AllPlain ys := by
  induction xs with
  | nil => simp [AllPlain]
  | cons x xs ih => simp [AllPlain, ih, and_assoc]

/-- A text starts with a bracket or with the first character of an unbroken word. -/
theorem exists_text_cons {x : Sexp} (h : x.Plain) : ∃ c cs, x.text = c :: cs ∧
    (c = '(' ↔ ∃ xs, x = list xs) ∧ c ≠ ')' ∧ c ≠ ' ' := by
  cases x with
  | word w =>
    obtain ⟨hne, hall⟩ := h
    obtain ⟨c, cs, hc⟩ := List.exists_cons_of_ne_nil hne
    have hbreaks := hall c (hc ▸ List.mem_cons_self)
    simp only [breaks, List.mem_cons, not_or] at hbreaks
    exact ⟨c, cs, hc, by simp [hbreaks.1], hbreaks.2.1, hbreaks.2.2.1⟩
  | list xs => exact ⟨'(', _, rfl, by simp, by decide, by decide⟩

mutual

theorem text_append_inj : ∀ {x y : Sexp} {r r' : List Char}, x.Plain → y.Plain → Stops r → Stops r' →
    x.text ++ r = y.text ++ r' → x = y ∧ r = r'
  | word v, word w, r, r', hx, hy, hr, hr', h => by
    obtain ⟨rfl, rfl⟩ := unbroken_append_inj hx hy hr hr' h
    exact ⟨rfl, rfl⟩
  | list xs, list ys, r, r', hx, hy, hr, hr', h => by
    obtain ⟨rfl, rfl⟩ := texts_append_inj (.inl rfl) hx hy (List.cons.inj h).2
    exact ⟨rfl, rfl⟩
  | word v, list ys, r, r', hx, _, _, _, h => by
    obtain ⟨c, cs, htext, hc, -⟩ := exists_text_cons hx
    rw [htext] at h
    obtain ⟨xs, hxs⟩ := hc.1 (List.cons.inj h).1
    cases hxs
  | list xs, word w, r, r', _, hy, _, _, h => by
    obtain ⟨c, cs, htext, hc, -⟩ := exists_text_cons hy
    rw [htext] at h
    obtain ⟨ys, hys⟩ := hc.1 (List.cons.inj h).1.symm
    cases hys

theorem texts_append_inj {before : List Char} (hb : before = [] ∨ before = [' ']) :
    ∀ {xs ys : List Sexp} {r r' : List Char}, AllPlain xs → AllPlain ys →
    texts before xs ++ r = texts before ys ++ r' → xs = ys ∧ r = r'
  | [], [], r, r', _, _, h => ⟨rfl, (List.cons.inj h).2⟩
  | x :: xs, y :: ys, r, r', hx, hy, h => by
    have hstops (zs : List Sexp) (t : List Char) : Stops (texts [' '] zs ++ t) := by
      cases zs <;> exact stops_cons (by decide) _
    simp only [texts, List.append_assoc, List.append_cancel_left_eq] at h
    obtain ⟨rfl, hrest⟩ := text_append_inj hx.1 hy.1 (hstops xs r) (hstops ys r') h
    obtain ⟨rfl, rfl⟩ := texts_append_inj (.inr rfl) hx.2 hy.2 hrest
    exact ⟨rfl, rfl⟩
  | [], y :: ys, r, r', _, hy, h => by
    obtain ⟨c, cs, htext, -, hc, -⟩ := exists_text_cons hy.1
    rcases hb with rfl | rfl <;> simp [texts, htext] at h
    exact absurd h.1.symm hc
  | x :: xs, [], r, r', hx, _, h => by
    obtain ⟨c, cs, htext, -, hc, -⟩ := exists_text_cons hx.1
    rcases hb with rfl | rfl <;> simp [texts, htext] at h
    exact absurd h.1 hc

end
end Sexp

open Sexp

def BinaryOp.words : BinaryOp → List Sexp
  | .notIn => [word "not", word "in"]
  | op => [word op.symbol]

mutual

def Expr.sexp : Expr → Sexp
  | .number value => word (toString value.toInt)
  | .var name => word name
  | .unary op operand => list [word op.symbol, operand.sexp]
  | .binary op lhs rhs => list (op.words ++ [lhs.sexp, rhs.sexp])
  | .call callee args => list (word "call" :: word callee :: Exprs.sexps args)

def Exprs.sexps : List Expr → List Sexp
  | [] => []
  | e :: es => e.sexp :: Exprs.sexps es

end

def lastResort (xs : List Sexp) : List Sexp :=
  if xs.isEmpty then [] else [list [word "else", list xs]]

mutual

def Stmt.sexp : Stmt → Sexp
  | .assign target value => list [word "=", word target, value.sexp]
  | .eval value => list [word "expr", value.sexp]
  | .branch cond body elifs otherwise =>
    list (word "if" :: cond.sexp :: list (Stmts.sexps body) ::
      (Arms.sexps elifs ++ lastResort (Stmts.sexps otherwise)))
  | .loop cond body => list [word "while", cond.sexp, list (Stmts.sexps body)]
  | .print args => list (word "print" :: Exprs.sexps args)
  | .ret value => list [word "return", value.sexp]
  | .pass => list [word "pass"]

def Stmts.sexps : List Stmt → List Sexp
  | [] => []
  | s :: ss => s.sexp :: Stmts.sexps ss

def Arms.sexps : List (Expr × List Stmt) → List Sexp
  | [] => []
  | (cond, body) :: es => list [word "elif", cond.sexp, list (Stmts.sexps body)] :: Arms.sexps es

end

def FunctionDef.sexp (f : FunctionDef) : Sexp :=
  list ((if f.exported then [word "extern", word "def"] else [word "def"]) ++
    [word f.name, list (f.params.map word), list (Stmts.sexps f.body)])

def Item.sexp : Item → Sexp
  | .function f => f.sexp
  | .statement s => s.sexp

mutual

theorem Expr.toList_render : ∀ e : Expr, e.render.toList = e.sexp.text
  | .number value => by rw [Expr.render, Expr.sexp, text]
  | .var name => by rw [Expr.render, Expr.sexp, text]
  | .unary op operand => by
    simp [Expr.render, Expr.sexp, text, texts, Expr.toList_render operand]
  | .binary op lhs rhs => by
    cases op <;> simp [Expr.render, Expr.sexp, text, texts, BinaryOp.words, BinaryOp.symbol,
      Expr.toList_render lhs, Expr.toList_render rhs]
  | .call callee args => by
    simp [Expr.render, Expr.sexp, text, texts, Exprs.toList_renderArgs args]

theorem Exprs.toList_renderArgs : ∀ es : List Expr,
    (Expr.renderArgs es).toList ++ [')'] = texts [' '] (Exprs.sexps es)
  | [] => by simp [Expr.renderArgs, Exprs.sexps, texts]
  | e :: es => by
    simp [Expr.renderArgs, Exprs.sexps, texts, Expr.toList_render e, ← Exprs.toList_renderArgs es]

end

mutual

theorem Stmt.toList_render : ∀ s : Stmt, s.render.toList = s.sexp.text
  | .assign target value => by
    simp [Stmt.render, Stmt.sexp, text, texts, Expr.toList_render value]
  | .eval value => by simp [Stmt.render, Stmt.sexp, text, texts, Expr.toList_render value]
  | .branch cond body elifs otherwise => by
    simp only [Stmt.sexp, text, texts, ← Arms.toList_renderElifs elifs]
    cases otherwise with
    | nil =>
      simp [Stmt.render, texts, Stmts.sexps, lastResort, Expr.toList_render cond,
        ← Stmts.toList_renderBlock body]
    | cons s ss =>
      have hlast : lastResort (Stmts.sexps (s :: ss)) = [list [word "else", list (Stmts.sexps (s :: ss))]] :=
        rfl
      simp [Stmt.render, text, texts, hlast, Expr.toList_render cond, ← Stmts.toList_renderBlock body,
        ← Stmts.toList_renderBlock (s :: ss)]
  | .loop cond body => by
    simp [Stmt.render, Stmt.sexp, text, texts, Expr.toList_render cond, ← Stmts.toList_renderBlock body]
  | .print args => by simp [Stmt.render, Stmt.sexp, text, texts, Exprs.toList_renderArgs args]
  | .ret value => by simp [Stmt.render, Stmt.sexp, text, texts, Expr.toList_render value]
  | .pass => by simp [Stmt.render, Stmt.sexp, text, texts]

theorem Stmts.toList_renderBlock : ∀ ss : List Stmt,
    (Stmt.renderBlock ss).toList ++ [')'] = texts [] (Stmts.sexps ss)
  | [] => by simp [Stmt.renderBlock, Stmts.sexps, texts]
  | [s] => by simp [Stmt.renderBlock, Stmts.sexps, texts, Stmt.toList_render s]
  | s :: t :: ss => by
    have h := Stmts.toList_renderBlock (t :: ss)
    rw [Stmts.sexps, texts] at h ⊢
    rw [Stmts.sexps, texts, Stmt.renderBlock]
    simp [Stmt.toList_render s, h]

theorem Arms.toList_renderElifs : ∀ (es : List (Expr × List Stmt)) (xs : List Sexp),
    (Stmt.renderElifs es).toList ++ texts [' '] xs = texts [' '] (Arms.sexps es ++ xs)
  | [], xs => by simp [Stmt.renderElifs, Arms.sexps]
  | (cond, body) :: es, xs => by
    simp [Stmt.renderElifs, Arms.sexps, text, texts, Expr.toList_render cond,
      ← Stmts.toList_renderBlock body, ← Arms.toList_renderElifs es]

end

theorem texts_params : ∀ names : List String,
    texts [] (names.map word) = (" ".intercalate names).toList ++ [')']
  | [] => by simp [texts]
  | [name] => by simp [texts, text]
  | name :: next :: names => by
    have h := texts_params (next :: names)
    rw [List.map_cons, texts] at h ⊢
    rw [List.map_cons, texts, List.append_assoc [' '], ← List.nil_append (word next).text, h]
    simp [text]

theorem FunctionDef.toList_render (f : FunctionDef) : f.render.toList = f.sexp.text := by
  have hparams := texts_params f.params
  have hbody := Stmts.toList_renderBlock f.body
  cases hexported : f.exported <;>
    simp [FunctionDef.render, FunctionDef.sexp, text, texts, hexported, hparams, ← hbody]

theorem Item.toList_render : ∀ i : Item, i.render.toList = i.sexp.text
  | .function f => f.toList_render
  | .statement s => s.toList_render

theorem UnaryOp.unbroken_symbol (op : UnaryOp) : Unbroken op.symbol := by
  cases op <;> exact unbroken_literal rfl (by decide)

theorem BinaryOp.allPlain_words (op : BinaryOp) : AllPlain op.words := by
  cases op <;> simp only [BinaryOp.words, AllPlain, Plain, and_true, BinaryOp.symbol] <;>
    first | exact unbroken_literal rfl (by decide)
          | exact ⟨unbroken_literal rfl (by decide), unbroken_literal rfl (by decide)⟩

mutual

theorem Expr.plain_sexp : ∀ e : Expr, AreWords e.identifiers → e.sexp.Plain
  | .number value, _ => unbroken_toString _
  | .var name, h => unbroken_of_isWord (areWords_cons.1 h).1
  | .unary op operand, h => ⟨op.unbroken_symbol, Expr.plain_sexp operand h, trivial⟩
  | .binary op lhs rhs, h => by
    rw [Expr.identifiers, areWords_append] at h
    exact allPlain_append.2 ⟨op.allPlain_words, Expr.plain_sexp lhs h.1, Expr.plain_sexp rhs h.2, trivial⟩
  | .call callee args, h => by
    rw [Expr.identifiers, areWords_cons] at h
    exact ⟨unbroken_literal rfl (by decide), unbroken_of_isWord h.1, Exprs.plain_sexps args h.2⟩

theorem Exprs.plain_sexps : ∀ es : List Expr, AreWords (Exprs.identifiers es) →
    AllPlain (Exprs.sexps es)
  | [], _ => trivial
  | e :: es, h => by
    rw [Exprs.identifiers, areWords_append] at h
    exact ⟨Expr.plain_sexp e h.1, Exprs.plain_sexps es h.2⟩

end

mutual

theorem Stmt.plain_sexp : ∀ s : Stmt, AreWords s.identifiers → s.sexp.Plain
  | .assign target value, h => by
    rw [Stmt.identifiers, areWords_cons] at h
    exact ⟨unbroken_literal rfl (by decide), unbroken_of_isWord h.1, value.plain_sexp h.2, trivial⟩
  | .eval value, h => ⟨unbroken_literal rfl (by decide), value.plain_sexp h, trivial⟩
  | .branch cond body elifs otherwise, h => by
    simp only [Stmt.identifiers, areWords_append] at h
    refine ⟨unbroken_literal rfl (by decide), cond.plain_sexp h.1.1.1, Stmts.plain_sexps body h.1.1.2,
      allPlain_append.2 ⟨Arms.plain_sexps elifs h.1.2, ?_⟩⟩
    rw [lastResort]
    split
    · exact trivial
    · exact ⟨⟨unbroken_literal rfl (by decide), Stmts.plain_sexps otherwise h.2, trivial⟩, trivial⟩
  | .loop cond body, h => by
    rw [Stmt.identifiers, areWords_append] at h
    exact ⟨unbroken_literal rfl (by decide), cond.plain_sexp h.1, Stmts.plain_sexps body h.2, trivial⟩
  | .print args, h => ⟨unbroken_literal rfl (by decide), Exprs.plain_sexps args h⟩
  | .ret value, h => ⟨unbroken_literal rfl (by decide), value.plain_sexp h, trivial⟩
  | .pass, _ => ⟨unbroken_literal rfl (by decide), trivial⟩

theorem Stmts.plain_sexps : ∀ ss : List Stmt, AreWords (Stmts.identifiers ss) →
    AllPlain (Stmts.sexps ss)
  | [], _ => trivial
  | s :: ss, h => by
    rw [Stmts.identifiers, areWords_append] at h
    exact ⟨Stmt.plain_sexp s h.1, Stmts.plain_sexps ss h.2⟩

theorem Arms.plain_sexps : ∀ es : List (Expr × List Stmt), AreWords (Arms.identifiers es) →
    AllPlain (Arms.sexps es)
  | [], _ => trivial
  | (cond, body) :: es, h => by
    simp only [Arms.identifiers, areWords_append] at h
    exact ⟨⟨unbroken_literal rfl (by decide), cond.plain_sexp h.1.1, Stmts.plain_sexps body h.1.2, trivial⟩,
      Arms.plain_sexps es h.2⟩

end

theorem allPlain_map_word {names : List String} (h : AreWords names) : AllPlain (names.map word) := by
  induction names with
  | nil => exact trivial
  | cons name names ih =>
    rw [areWords_cons] at h
    exact ⟨unbroken_of_isWord h.1, ih h.2⟩

theorem Item.plain_sexp (i : Item) (h : AreWords i.identifiers) : i.sexp.Plain := by
  cases i with
  | statement s => exact s.plain_sexp h
  | function f =>
    simp only [Item.identifiers, List.cons_append, areWords_cons, areWords_append] at h
    refine allPlain_append.2 ⟨?_, unbroken_of_isWord h.1, allPlain_map_word h.2.1,
      Stmts.plain_sexps f.body h.2.2, trivial⟩
    split
    · exact ⟨unbroken_literal rfl (by decide), unbroken_literal rfl (by decide), trivial⟩
    · exact ⟨unbroken_literal rfl (by decide), trivial⟩

theorem UnaryOp.symbol_inj {op op' : UnaryOp} (h : op.symbol = op'.symbol) : op = op' := by
  cases op <;> cases op' <;> first | rfl | exact absurd h (by decide)

/-- The words of an operator are known from the list, and so are its operands. -/
theorem BinaryOp.words_append_inj {op op' : BinaryOp} {x y x' y' : Sexp}
    (h : op.words ++ [x, y] = op'.words ++ [x', y']) : op = op' ∧ x = x' ∧ y = y' := by
  cases op <;> cases op' <;> simp_all [BinaryOp.words, BinaryOp.symbol]

theorem BinaryOp.words_append_ne_unary (op : BinaryOp) (x y z w : Sexp) : op.words ++ [x, y] ≠ [z, w] := by
  cases op <;> simp [BinaryOp.words]

theorem BinaryOp.words_append_ne_call (op : BinaryOp) (x y : Sexp) (xs : List Sexp) :
    op.words ++ [x, y] ≠ word "call" :: xs := by
  cases op <;> simp [BinaryOp.words, BinaryOp.symbol]

theorem UnaryOp.symbol_ne_call (op : UnaryOp) : op.symbol ≠ "call" := by
  cases op <;> decide

mutual

theorem Expr.sexp_inj : ∀ {e e' : Expr}, AreWords e.identifiers → AreWords e'.identifiers →
    e.sexp = e'.sexp → e = e'
  | .number a, e', _, h', heq => by
    cases e' with
    | number b =>
      rw [Expr.sexp, Expr.sexp, word.injEq] at heq
      rw [Int32.toInt_inj.1 (toString_int_inj heq)]
    | var name =>
      rw [Expr.sexp, Expr.sexp, word.injEq] at heq
      exact absurd (heq ▸ (areWords_cons.1 h').1) (not_isWord_toString _)
    | _ => cases heq
  | .var name, e', h, _, heq => by
    cases e' with
    | number b =>
      rw [Expr.sexp, Expr.sexp, word.injEq] at heq
      exact absurd (heq ▸ (areWords_cons.1 h).1) (not_isWord_toString _)
    | var name' =>
      rw [Expr.sexp, Expr.sexp, word.injEq] at heq
      rw [heq]
    | _ => cases heq
  | .unary op e, e', h, h', heq => by
    cases e' with
    | unary op' e₂ =>
      simp only [Expr.sexp, list.injEq, List.cons.injEq, word.injEq, and_true] at heq
      rw [Expr.identifiers] at h h'
      rw [UnaryOp.symbol_inj heq.1, Expr.sexp_inj h h' heq.2]
    | binary op' l r =>
      rw [Expr.sexp, Expr.sexp, list.injEq] at heq
      exact absurd heq.symm (op'.words_append_ne_unary _ _ _ _)
    | call callee args =>
      simp only [Expr.sexp, list.injEq, List.cons.injEq, word.injEq] at heq
      exact absurd heq.1 op.symbol_ne_call
    | _ => cases heq
  | .binary op l r, e', h, h', heq => by
    cases e' with
    | unary op' e₂ =>
      rw [Expr.sexp, Expr.sexp, list.injEq] at heq
      exact absurd heq (op.words_append_ne_unary _ _ _ _)
    | binary op' l' r' =>
      rw [Expr.sexp, Expr.sexp, list.injEq] at heq
      rw [Expr.identifiers, areWords_append] at h h'
      obtain ⟨rfl, hl, hr⟩ := BinaryOp.words_append_inj heq
      rw [Expr.sexp_inj h.1 h'.1 hl, Expr.sexp_inj h.2 h'.2 hr]
    | call callee args =>
      rw [Expr.sexp, Expr.sexp, list.injEq] at heq
      exact absurd heq (op.words_append_ne_call _ _ _)
    | _ => cases heq
  | .call callee args, e', h, h', heq => by
    cases e' with
    | unary op' e₂ =>
      simp only [Expr.sexp, list.injEq, List.cons.injEq, word.injEq] at heq
      exact absurd heq.1.symm op'.symbol_ne_call
    | binary op' l' r' =>
      rw [Expr.sexp, Expr.sexp, list.injEq] at heq
      exact absurd heq.symm (op'.words_append_ne_call _ _ _)
    | call callee' args' =>
      simp only [Expr.sexp, list.injEq, List.cons.injEq, word.injEq, true_and] at heq
      rw [Expr.identifiers, areWords_cons] at h h'
      rw [heq.1, Exprs.sexps_inj h.2 h'.2 heq.2]
    | _ => cases heq

theorem Exprs.sexps_inj : ∀ {es es' : List Expr}, AreWords (Exprs.identifiers es) →
    AreWords (Exprs.identifiers es') → Exprs.sexps es = Exprs.sexps es' → es = es'
  | [], [], _, _, _ => rfl
  | e :: es, e' :: es', h, h', heq => by
    rw [Exprs.identifiers, areWords_append] at h h'
    obtain ⟨he, hes⟩ := List.cons.inj heq
    rw [Expr.sexp_inj h.1 h'.1 he, Exprs.sexps_inj h.2 h'.2 hes]
  | [], _ :: _, _, _, heq => by cases heq
  | _ :: _, [], _, _, heq => by cases heq

end

theorem lastResort_inj {xs ys : List Sexp} (h : lastResort xs = lastResort ys) : xs = ys := by
  cases xs <;> cases ys <;> simp_all [lastResort]

theorem lastResort_ne_elif (xs ys zs : List Sexp) : lastResort xs ≠ list (word "elif" :: ys) :: zs := by
  cases xs <;> simp [lastResort]

mutual

theorem Stmt.sexp_inj : ∀ {s s' : Stmt}, AreWords s.identifiers → AreWords s'.identifiers →
    s.sexp = s'.sexp → s = s'
  | .assign target value, s', h, h', heq => by
    cases s' with
    | assign target' value' =>
      simp only [Stmt.sexp, list.injEq, List.cons.injEq, word.injEq, true_and, and_true] at heq
      rw [Stmt.identifiers, areWords_cons] at h h'
      rw [heq.1, Expr.sexp_inj h.2 h'.2 heq.2]
    | _ => simp [Stmt.sexp] at heq
  | .eval value, s', h, h', heq => by
    cases s' with
    | eval value' =>
      simp only [Stmt.sexp, list.injEq, List.cons.injEq, true_and, and_true] at heq
      rw [Stmt.identifiers] at h h'
      rw [Expr.sexp_inj h h' heq]
    | _ => simp [Stmt.sexp] at heq
  | .branch cond body elifs otherwise, s', h, h', heq => by
    cases s' with
    | branch cond' body' elifs' otherwise' =>
      simp only [Stmt.sexp, list.injEq, List.cons.injEq, true_and] at heq
      simp only [Stmt.identifiers, areWords_append] at h h'
      obtain ⟨helifs, hotherwise⟩ := Arms.sexps_inj h.1.2 h'.1.2 heq.2.2
      rw [Expr.sexp_inj h.1.1.1 h'.1.1.1 heq.1, Stmts.sexps_inj h.1.1.2 h'.1.1.2 heq.2.1, helifs,
        Stmts.sexps_inj h.2 h'.2 hotherwise]
    | _ => simp [Stmt.sexp] at heq
  | .loop cond body, s', h, h', heq => by
    cases s' with
    | loop cond' body' =>
      simp only [Stmt.sexp, list.injEq, List.cons.injEq, true_and, and_true] at heq
      rw [Stmt.identifiers, areWords_append] at h h'
      rw [Expr.sexp_inj h.1 h'.1 heq.1, Stmts.sexps_inj h.2 h'.2 heq.2]
    | _ => simp [Stmt.sexp] at heq
  | .print args, s', h, h', heq => by
    cases s' with
    | print args' =>
      simp only [Stmt.sexp, list.injEq, List.cons.injEq, true_and] at heq
      rw [Stmt.identifiers] at h h'
      rw [Exprs.sexps_inj h h' heq]
    | _ => simp [Stmt.sexp] at heq
  | .ret value, s', h, h', heq => by
    cases s' with
    | ret value' =>
      simp only [Stmt.sexp, list.injEq, List.cons.injEq, true_and, and_true] at heq
      rw [Stmt.identifiers] at h h'
      rw [Expr.sexp_inj h h' heq]
    | _ => simp [Stmt.sexp] at heq
  | .pass, s', _, _, heq => by
    cases s' with
    | pass => rfl
    | _ => simp [Stmt.sexp] at heq

theorem Stmts.sexps_inj : ∀ {ss ss' : List Stmt}, AreWords (Stmts.identifiers ss) →
    AreWords (Stmts.identifiers ss') → Stmts.sexps ss = Stmts.sexps ss' → ss = ss'
  | [], [], _, _, _ => rfl
  | s :: ss, s' :: ss', h, h', heq => by
    rw [Stmts.identifiers, areWords_append] at h h'
    obtain ⟨hs, hss⟩ := List.cons.inj heq
    rw [Stmt.sexp_inj h.1 h'.1 hs, Stmts.sexps_inj h.2 h'.2 hss]
  | [], _ :: _, _, _, heq => by cases heq
  | _ :: _, [], _, _, heq => by cases heq

/-- The arms of a branch end where its last resort starts. -/
theorem Arms.sexps_inj : ∀ {es es' : List (Expr × List Stmt)} {xs ys : List Sexp},
    AreWords (Arms.identifiers es) → AreWords (Arms.identifiers es') →
    Arms.sexps es ++ lastResort xs = Arms.sexps es' ++ lastResort ys → es = es' ∧ xs = ys
  | [], [], _, _, _, _, heq => ⟨rfl, lastResort_inj heq⟩
  | (cond, body) :: es, (cond', body') :: es', _, _, h, h', heq => by
    simp only [Arms.sexps, List.cons_append, List.cons.injEq, list.injEq, true_and, and_true] at heq
    simp only [Arms.identifiers, areWords_append] at h h'
    obtain ⟨rfl, rfl⟩ := Arms.sexps_inj h.2 h'.2 heq.2
    rw [Expr.sexp_inj h.1.1 h'.1.1 heq.1.1, Stmts.sexps_inj h.1.2 h'.1.2 heq.1.2]
    exact ⟨rfl, rfl⟩
  | [], (_, _) :: _, _, _, _, _, heq => absurd heq (lastResort_ne_elif _ _ _)
  | (_, _) :: _, [], _, _, _, _, heq => absurd heq.symm (lastResort_ne_elif _ _ _)

end

theorem FunctionDef.sexp_cases {f g : FunctionDef} (h : f.sexp = g.sexp) :
    f.exported = g.exported ∧ f.name = g.name ∧ f.params = g.params ∧
      Stmts.sexps f.body = Stmts.sexps g.body := by
  have hparams (xs ys : List String) : xs.map word = ys.map word → xs = ys :=
    List.map_inj_right (fun a b hab => word.inj hab) |>.1
  cases hf : f.exported <;> cases hg : g.exported <;> simp [FunctionDef.sexp, hf, hg] at h
  · exact ⟨rfl, h.1, hparams _ _ h.2.1, h.2.2⟩
  · exact ⟨rfl, h.1, hparams _ _ h.2.1, h.2.2⟩

theorem Item.sexp_inj {i i' : Item} (h : AreWords i.identifiers) (h' : AreWords i'.identifiers)
    (heq : i.sexp = i'.sexp) : i = i' := by
  cases i with
  | statement s =>
    cases i' with
    | statement s' => rw [Stmt.sexp_inj h h' heq]
    | function f =>
      cases hf : f.exported <;> cases s <;> simp [Item.sexp, FunctionDef.sexp, Stmt.sexp, hf] at heq
  | function f =>
    cases i' with
    | statement s =>
      cases hf : f.exported <;> cases s <;> simp [Item.sexp, FunctionDef.sexp, Stmt.sexp, hf] at heq
    | function f' =>
      simp only [Item.identifiers, List.cons_append, areWords_cons, areWords_append] at h h'
      obtain ⟨hexported, hname, hparams, hbody⟩ := FunctionDef.sexp_cases heq
      have hbodies := Stmts.sexps_inj h.2.2 h'.2.2 hbody
      cases f
      cases f'
      simp_all

theorem Program.eq_of_toList_render : ∀ {p q : Program}, AreWords p.identifiers → AreWords q.identifiers →
    p.render.toList = q.render.toList → p = q
  | [], [], _, _, _ => rfl
  | i :: is, j :: js, hp, hq, h => by
    rw [Program.identifiers, List.flatMap_cons, areWords_append] at hp hq
    have hbreak : '\n' ∈ breaks := by decide
    simp only [Program.render, String.toList_append, Item.toList_render, List.append_assoc] at h
    obtain ⟨hitem, hrest⟩ := text_append_inj (i.plain_sexp hp.1) (j.plain_sexp hq.1)
      (stops_cons hbreak _) (stops_cons hbreak _) h
    rw [Item.sexp_inj hp.1 hq.1 hitem, Program.eq_of_toList_render hp.2 hq.2 (List.cons.inj hrest).2]
  | [], _ :: _, _, _, h | _ :: _, [], _, _, h => by
    simp [Program.render] at h

/-- Trees whose names are words differ if and only if their printed forms do. -/
theorem render_eq_render_iff {p q : Program} (hp : ∀ name ∈ p.identifiers, IsWord name.toList)
    (hq : ∀ name ∈ q.identifiers, IsWord name.toList) : p.render = q.render ↔ p = q := by
  constructor
  · intro h
    exact Program.eq_of_toList_render hp hq (congrArg String.toList h)
  · rintro rfl
    rfl

def wordyProgram : Program :=
  [.function ⟨"call", ["neg"],
      [.ret (.binary .notIn (.call "call" [.unary .not (.var "neg")]) (.unary .negate (.number 1)))], false⟩,
    .statement (.print [.var "call", .binary .sub (.var "neg") (.number 2)])]

/-- The parser gives this program, known from its printed form. -/
theorem render_eq_render_wordyProgram :
    ∃ p, parseProgram
        "def call(neg): return call(not neg) not in -1; enddef print call, neg - 2;".toList = .ok p ∧
      p.render =
        "(def call (neg) ((return (not in (call call (not neg)) (neg 1)))))\n(print call (- neg 2))\n" ∧
      p = wordyProgram := by
  have hparse : (parseProgram
      "def call(neg): return call(not neg) not in -1; enddef print call, neg - 2;".toList).map
        (fun p => (p.render, p.identifiers)) = .ok (wordyProgram.render, wordyProgram.identifiers) := by
    decide +kernel
  have hwords : ∀ name ∈ wordyProgram.identifiers, IsWord name.toList := by
    decide +kernel
  have htext : wordyProgram.render =
      "(def call (neg) ((return (not in (call call (not neg)) (neg 1)))))\n(print call (- neg 2))\n" := by
    decide +kernel
  cases hp : parseProgram
      "def call(neg): return call(not neg) not in -1; enddef print call, neg - 2;".toList with
  | error e =>
    rw [hp] at hparse
    cases hparse
  | ok p =>
    rw [hp] at hparse
    obtain ⟨hrender, hnames⟩ := Prod.mk.inj (Except.ok.inj hparse)
    exact ⟨p, rfl, hrender.trans htext, (render_eq_render_iff (hnames ▸ hwords) hwords).1 hrender⟩

end IntLang
