import IntLang.Proofs.ParserComplete
import IntLang.Proofs.Unambiguous

/-! Parsing is exact: a text is accepted if and only if its tokens have a derivation, and what is built is
the syntax tree of that derivation, of which there is only one. -/
namespace IntLang
open Grammar

section Tokens

theorem BinaryOp.valid (op : BinaryOp) : ∀ x ∈ op.tokens, x.Valid := by
  cases op <;> simp [BinaryOp.tokens, Token.Valid]

theorem Tree.valid {s : Phrase} (t : Tree s) : ∀ x ∈ t.tokens, x.Valid := by
  induction t with
  | more op h operand rest ih₁ ih₂ =>
    exact List.forall_mem_append.2 ⟨op.valid, List.forall_mem_append.2 ⟨ih₁, ih₂⟩⟩
  | _ => simp_all [Tree.tokens, Token.Valid, or_imp]

theorem ItemTree.paramTokens_valid (params : List String) :
    ∀ x ∈ ItemTree.paramTokens params, x.Valid := by
  induction params with
  | nil => simp [ItemTree.paramTokens]
  | cons x params ih =>
    cases params with
    | nil => simp [ItemTree.paramTokens, Token.Valid]
    | cons y params =>
      rw [ItemTree.paramTokens_cons_cons]
      simpa [Token.Valid] using ih

theorem ProgramTree.valid (t : ProgramTree) : ∀ x ∈ t.tokens, x.Valid := by
  intro x hx
  obtain ⟨i, -, hi⟩ := List.mem_flatMap.1 hx
  cases i with
  | statement s => exact s.valid x hi
  | function exported name params body =>
    have hparams := ItemTree.paramTokens_valid params x
    have hbody := body.valid x
    cases exported <;> simp [ItemTree.tokens] at hi <;> grind [Token.Valid]

theorem Source.tokenize_of_valid {s : Source} (hne : s.nextLexeme.1.token ≠ .endOfFile)
    (hvalid : s.nextLexeme.1.token.Valid) :
    s.tokenize.1 = s.nextLexeme.2.tokenize.1.map (s.nextLexeme.1 :: ·) := by
  rw [tokenize, dif_neg hne]
  cases ht : s.nextLexeme.1.token with
  | invalid e => exact absurd ht (hvalid e)
  | _ => rfl

/-- Scanning gives the tokens of the source, and the end of the input after them. It fails only if
one of them is no token. -/
theorem Source.tokenize_spec (s : Source) :
    (∀ ls, s.tokenize.1 = .ok ls → ls.map (·.token) = s.tokens ++ [Token.endOfFile]) ∧
      ∀ d, s.tokenize.1 = .error d → ¬ ∀ t ∈ s.tokens, t.Valid := by
  induction hn : s.size using Nat.strongRecOn generalizing s with
  | ind n ih =>
    rw [tokens_eq, held]
    by_cases heof : s.nextLexeme.1.token = .endOfFile
    · rw [tokenize, dif_pos heof, if_pos heof]
      refine ⟨fun ls h => ?_, fun d h => ?_⟩
      · cases h
        simp [heof]
      · cases h
    · rw [if_neg heof]
      obtain ⟨hok, herror⟩ := ih _ (hn ▸ s.size_nextLexeme_lt heof) s.nextLexeme.2 rfl
      by_cases hvalid : s.nextLexeme.1.token.Valid
      · rw [tokenize_of_valid heof hvalid]
        cases hrest : s.nextLexeme.2.tokenize.1 with
        | error d =>
          refine ⟨fun ls h => (by cases h), fun _ _ hall => ?_⟩
          exact herror d hrest fun t ht => hall t (List.mem_cons_of_mem _ ht)
        | ok ls =>
          refine ⟨fun ls' h => ?_, fun d h => (by cases h)⟩
          cases h
          exact congrArg (s.nextLexeme.1.token :: ·) (hok ls hrest)
      · refine ⟨fun ls h => ?_, fun d _ hall => hvalid (hall _ List.mem_cons_self)⟩
        rw [tokenize, dif_neg heof] at h
        cases ht : s.nextLexeme.1.token with
        | invalid e =>
          rw [ht] at h
          cases h
        | _ => exact absurd (by simp [ht, Token.Valid]) hvalid

end Tokens

/-- A text is parsed to a program if and only if its tokens have a derivation that the program is
assigned to. No tokens have two derivations. -/
theorem parseProgram_iff_derivation :
    (∀ cs p, parseProgram cs = .ok p ↔ ∃ ls, (Source.ofText cs).tokenize.1 = .ok ls ∧
      ∃ t : ProgramTree, ls.map (·.token) = t.tokens ++ [.endOfFile] ∧ t.Distinct ∧ t.value = p) ∧
    ∀ t t' : ProgramTree, t.tokens = t'.tokens → t = t' := by
  refine ⟨fun cs p => ?_, fun t t' => ProgramTree.tokens_inj⟩
  obtain ⟨hok, herror⟩ := (Source.ofText cs).tokenize_spec
  constructor
  · intro h
    obtain ⟨t, hvalue, hdistinct, htokens⟩ := exists_tree h
    cases hscan : (Source.ofText cs).tokenize.1 with
    | error d => exact absurd (htokens ▸ t.valid) (herror d hscan)
    | ok ls => exact ⟨ls, rfl, t, by rw [hok ls hscan, htokens], hdistinct, hvalue⟩
  · rintro ⟨ls, hscan, t, htokens, hdistinct, rfl⟩
    rw [hok ls hscan] at htokens
    exact parseProgram_of_tree t hdistinct (List.append_cancel_right htokens)

end IntLang
