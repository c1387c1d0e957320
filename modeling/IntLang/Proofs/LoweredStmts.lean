import IntLang.Proofs.LoweredExprs

/-! Lowering of statements writes their code. Every block that a statement makes has an end when the
statement is done, except the one where control goes on; so the blocks that wait outside are the same
before and after. -/
namespace IntLang.Lower
open IntLang.Flow IntLang.Code

/-- Lowering goes on from `σ` to a state where the code of something is written. -/
def Writes (params : List String) (σ : Lowering) (d : Draft)
    (code : Site → Cursor → Cursor → Prop) (_ : Unit) (σ' : Lowering) : Prop :=
  ∃ d', Proceeds params σ d σ' d' ∧ ∀ x D, Settled σ' d' x D → code x (D.cursor d) (D.cursor d')

section Blocks
variable {params : List String} {σ σ' : Lowering} {d d' D : Draft} {x : Site}

theorem append_spec (h : Ready params σ d) (name : String) :
    Spec (build (Builder.appendBlock name)) σ True fun b σ' =>
      b = d.blocks.length ∧ Reached params σ d σ' (d.append name) :=
  .ok (draws_append (.inl h.framed.current.ne_nil) name rfl σ h.drawn) ⟨rfl, h.redraw (.append name) rfl⟩

/-- Ending the current block and beginning another. -/
theorem close_spec (h : Ready params σ d) {t : Terminator} {b : Nat} (ht : d.Ends t)
    (hs : d.Serves t.needs) (ha : d.Admits t) (hb : b ∈ d.pending) :
    Spec (do build (Builder.terminate t); build (Builder.positionAt b)) σ True fun _ σ' =>
      Reached params σ d σ' ((d.close t).goto b) :=
  .ok ((draws_terminate h.framed.current t).bind (draws_position b) σ h.drawn)
    (h.redraw (.close ht hs ha hb) rfl)

theorem close_then (h : Ready params σ d) {t : Terminator} {b : Nat} (ht : d.Ends t)
    (hs : d.Serves t.needs) (ha : d.Admits t) (hb : b ∈ d.pending) {α : Type} {next : Lower α}
    {acc : Prop} {post : α → Lowering → Prop}
    (hnext : ∀ σ', Reached params σ d σ' ((d.close t).goto b) → Spec next σ' acc post) :
    Spec (do build (Builder.terminate t); build (Builder.positionAt b); next) σ acc post := by
  have hall := (close_spec h ht hs ha hb).after (f := fun _ => next) fun _ => hnext
  rwa [bind_assoc] at hall

/-- A test ends the current block and goes on in the first of two new ones, which are both made
below it. -/
theorem test_spec (h : Ready params σ d) (cond : Expr) :
    Spec (test cond) σ (cond.Accepted (Callable σ.builder.module)) fun next σ' =>
      ∃ d', Reached params σ d σ' d' ∧ d'.pending = next :: d.pending ∧
        (d'.Above d.block d'.block ∧ d'.Above d.block next) ∧
        (∀ D, Draft.cursor D d' = ⟨d'.block, 0, d'.code.length⟩) ∧
        ∀ x D, Settled σ' d' x D → TestCode x cond (D.cursor d) d'.block next := by
  refine (expr_spec cond h).before fun v σ₁ ⟨d₁, hd₁, hv₁, hc₁⟩ => ?_
  refine (zeroTest_spec hd₁.ready hv₁ false).after fun c σ₂ ⟨d₂, hd₂, hv₂, hc₂⟩ => ?_
  refine (append_spec hd₂.ready "if.then").after fun onTrue σ₃ ⟨htrue, hd₃⟩ => ?_
  refine (append_spec hd₃.ready "if.else").after fun onFalse σ₄ ⟨hfalse, hd₄⟩ => ?_
  subst htrue hfalse
  have hlt := hd₂.ready.framed.current.lt
  have hle : Draft.Le d₂ ((d₂.append "if.then").append "if.else") := (Draft.Le.append _ _).trans (.append _ _)
  have hc : ((d₂.append "if.then").append "if.else").Has c .i1 := hv₂.le hle .refl
  have hthen : ((d₂.append "if.then").append "if.else").Hangs d₂.block d₂.blocks.length :=
    (Draft.hangs_append.2 (.inr ⟨rfl, rfl, by omega⟩)).le (.append _ _)
  have helse : ((d₂.append "if.then").append "if.else").Hangs d₂.block
      (d₂.append "if.then").blocks.length :=
    Draft.hangs_append.2 (.inr ⟨rfl, rfl, by simp⟩)
  have hmem : d₂.blocks.length ∈ ((d₂.append "if.then").append "if.else").pending := by simp
  refine close_then hd₄.ready (t := .branch c d₂.blocks.length (d₂.append "if.then").blocks.length)
    ⟨hc.value nofun, hd₄.ready.framed.target hmem, hd₄.ready.framed.target (by simp)⟩
    (by simpa [Terminator.needs] using hc)
    (Draft.admits_branch.2 ⟨Draft.admits_jump.2 ⟨_, hthen, .refl⟩, Draft.admits_jump.2 ⟨_, helse, .refl⟩⟩)
    hmem fun σ₅ hd₅ => ?_
  have hbelow := (hd₁.trans hd₂).below.le (hle.trans (hd₅.le hd₄.ready))
  refine .pure ⟨_, (((hd₁.toReached.trans hd₂.toReached).trans hd₃).trans hd₄).trans hd₅, ?_,
    ⟨hbelow.tail (hthen.le (hd₅.le hd₄.ready)), hbelow.tail (helse.le (hd₅.le hd₄.ready))⟩,
    fun D => ?_, fun x D hs => ?_⟩
  · simp [hd₂.pending, hd₁.pending]
  · exact hd₄.ready.framed.cursor_close _ hmem
  · have hs₄ := hs.before hd₄.ready hd₅
    have hs₂ := (hs₄.before hd₃.ready hd₄).before hd₂.ready hd₃
    have hclosed := Draft.closed_goto_of_le hd₄.ready.framed.current hs.le
    rw [Draft.cursor_append hd₃.ready.framed.current, Draft.cursor_append hd₂.ready.framed.current,
      ← hs.function] at hclosed
    exact ⟨v, _, c, _, hc₁ x D (hs₂.before hd₁.ready hd₂.toReached), hc₂ x D hs₂, hclosed⟩

theorem store_spec (h : Ready params σ d) {v p : Operand} (hv : d.Has v .i32)
    (hp : d.Address σ.builder.module p) (hptr : d.Has p .ptr) :
    Spec (build (Builder.store v p)) σ True
      (Writes params σ d fun x a b => ∃ u, Single x.function (.store v p) a u b) := by
  refine .ok (draws_store h.framed.current v p σ h.drawn)
    ⟨_, ⟨h.redraw (.push ⟨hv.value nofun, hp⟩ ?_) rfl, rfl, .refl⟩,
      fun x D hs => ⟨.instr d.code.length, ?_⟩⟩
  · simp [Instr.needs, hv, hptr]
  · rw [hs.function]
    exact Draft.single_of_le h.framed.current hs.le rfl

/-- A return ends the current block, and a new one takes what follows. -/
theorem leave_spec (h : Ready params σ d) {v : Operand} (hv : d.Has v .i32) :
    Spec (do
        build (Builder.ret v)
        let dead ← build (Builder.appendBlock "after.ret")
        build (Builder.positionAt dead)) σ True
      (Writes params σ d fun x a _ => Closed x.function a (.ret v)) := by
  have hlt := h.framed.current.lt
  have hdead : ((d.close (.ret v)).append "after.ret").Hangs d.block d.blocks.length :=
    Draft.hangs_append.2 (.inr ⟨rfl, (Draft.length_blocks_close d _).symm, by omega⟩)
  refine .ok (draws_leave h.framed.current v "after.ret" σ h.drawn)
    ⟨_, ⟨h.redraw (.leave "after.ret" hv) rfl, ?_, .single hdead⟩, fun x D hs => ?_⟩
  · simp
  · simp only [hs.function]
    exact Draft.closed_of_le h.framed.current
      (((Draft.Le.append _ "after.ret").trans (.goto _ _)).trans hs.le)

/-- Three blocks that are made one after the other where lowering stands. -/
theorem append_three_then (h : Ready params σ d) (n₁ n₂ n₃ : String) {α : Type}
    {next : BlockId → BlockId → BlockId → Lower α} {acc : Prop} {post : α → Lowering → Prop}
    (hnext : ∀ b₁ b₂ b₃ σ' d', Reached params σ d σ' d' →
      d'.pending = b₃ :: b₂ :: b₁ :: d.pending → [b₁, b₂, b₃].Nodup →
      (∀ b ∈ [b₁, b₂, b₃], d'.Hangs d.block b ∧ d'.Admits (.jump b)) →
      (∀ D, Draft.cursor D d' = D.cursor d) → Spec (next b₁ b₂ b₃) σ' acc post) :
    Spec (do
        let b₁ ← build (Builder.appendBlock n₁)
        let b₂ ← build (Builder.appendBlock n₂)
        let b₃ ← build (Builder.appendBlock n₃)
        next b₁ b₂ b₃) σ acc post := by
  refine (append_spec h n₁).after fun b₁ σ₁ ⟨hb₁, hd₁⟩ => ?_
  refine (append_spec hd₁.ready n₂).after fun b₂ σ₂ ⟨hb₂, hd₂⟩ => ?_
  refine (append_spec hd₂.ready n₃).after fun b₃ σ₃ ⟨hb₃, hd₃⟩ => ?_
  have hhangs (b : BlockId) (hb : b ∈ [b₁, b₂, b₃]) :
      (((d.append n₁).append n₂).append n₃).Hangs d.block b :=
    h.framed.hangs_three n₁ n₂ n₃ (by simpa [hb₁, hb₂, hb₃] using hb)
  refine hnext b₁ b₂ b₃ σ₃ _ ((hd₁.trans hd₂).trans hd₃) ?_ ?_
    (fun b hb => ⟨hhangs b hb, Draft.admits_jump.2 ⟨d.block, hhangs b hb, .refl⟩⟩) fun D => ?_
  · simp only [Draft.pending_append, hb₁, hb₂, hb₃]
  · simp [hb₁, hb₂, hb₃, Nat.add_assoc]
  · rw [Draft.cursor_append hd₂.ready.framed.current, Draft.cursor_append hd₁.ready.framed.current,
      Draft.cursor_append h.framed.current]

/-- Lowering of these statements writes their code, wherever it is ready to begin. -/
def Lowers (params : List String) (ss : List Stmt) : Prop :=
  ∀ σ d, Ready params σ d →
    Spec (stmts ss) σ (Stmts.Accepted (Callable σ.builder.module) ss)
      (Writes params σ d fun x => StmtsCode x ss)

/-- The code of one arm: control goes through the body to `cont`, or comes to `b` if the test
fails. -/
def ArmCode (x : Site) (cond : Expr) (body : List Stmt) (cont : BlockId) (a b : Cursor) : Prop :=
  ∃ onTrue next k k', TestCode x cond a onTrue next ∧
    (∃ d, StmtsCode x body ⟨onTrue, 0, k⟩ d ∧ Closed x.function d (.jump cont)) ∧ b = ⟨next, 0, k'⟩

/-- An arm goes on where its test fails, with the same blocks waiting. -/
theorem arm_then (h : Ready params σ d) {cond : Expr} {body : List Stmt} {cont : BlockId}
    (hbody : Lowers params body) (hcont : cont ∈ d.pending) (ha : d.Admits (.jump cont)) {α : Type}
    {rest : Lower α} {acc : Prop} {post : α → Lowering → Prop}
    (hrest : ∀ σ' d', Proceeds params σ d σ' d' →
      (∀ x D, Settled σ' d' x D → ArmCode x cond body cont (D.cursor d) (D.cursor d')) →
      Spec rest σ' acc post) :
    Spec (do
        let next ← test cond
        stmts body
        build (Builder.jump cont)
        build (Builder.positionAt next)
        rest) σ
      (cond.Accepted (Callable σ.builder.module) ∧
        Stmts.Accepted (Callable σ.builder.module) body ∧ acc) post := by
  refine (test_spec h cond).bind fun next σ₁ ⟨d₁, hd₁, hp₁, ⟨hb₁, hn₁⟩, hcur₁, hc₁⟩ => ?_
  rw [← Reached.callable_eq h hd₁]
  refine (hbody σ₁ d₁ hd₁.ready).bind fun _ σ₂ ⟨d₂, hd₂, hc₂⟩ => ?_
  have hpend₂ : d₂.pending = next :: d.pending := hd₂.pending.trans hp₁
  have hnext : next ∈ d₂.pending := by simp [hpend₂]
  obtain ⟨c, hhangs, habove⟩ := Draft.admits_jump.1 ha
  have hle₁ := hd₁.le h
  have ha₁ : d₁.Admits (.jump cont) :=
    Draft.admits_jump.2 ⟨c, hhangs.le hle₁, (habove.le hle₁).trans hb₁⟩
  refine close_then hd₂.ready (t := .jump cont) (hd₂.ready.framed.target (by simp [hpend₂, hcont]))
    Draft.serves_nil (hd₂.admits hd₁.ready ha₁) hnext fun σ₃ hd₃ => ?_
  have hbelow := hn₁.le ((hd₂.toReached.trans hd₃).le hd₁.ready)
  refine hrest σ₃ _ ⟨(hd₁.trans hd₂.toReached).trans hd₃, by simp [hpend₂], hbelow⟩ fun x D hs => ?_
  have hs₂ := hs.before hd₂.ready hd₃
  have hcode := hc₂ x D hs₂
  have hjoin := Draft.closed_goto_of_le hd₂.ready.framed.current hs.le
  rw [hcur₁] at hcode
  rw [← hs.function] at hjoin
  exact ⟨_, next, _, _, hc₁ x D (hs₂.before hd₁.ready hd₂.toReached), ⟨_, hcode, hjoin⟩,
    hd₂.ready.framed.cursor_close _ hnext⟩

end Blocks

section Statements
variable {params : List String} {σ : Lowering} {d : Draft}

/-- The first arm, the others, what is done if all tests fail, and the block where they join. -/
theorem branch_spec (h : Ready params σ d) {cond : Expr} {body otherwise : List Stmt}
    {elifs : List (Expr × List Stmt)} (hbody : Lowers params body)
    (helifs : ∀ cont σ d, Ready params σ d → cont ∈ d.pending → d.Admits (.jump cont) →
      Spec (arms elifs cont) σ (Arms.Accepted (Callable σ.builder.module) elifs)
        (Writes params σ d fun x a b => ArmsCode x elifs a cont b))
    (hotherwise : Lowers params otherwise) :
    Spec (stmt (.branch cond body elifs otherwise)) σ
      (Stmt.Accepted (Callable σ.builder.module) (.branch cond body elifs otherwise))
      (Writes params σ d fun x => StmtCode x (.branch cond body elifs otherwise)) := by
  refine (append_spec h "if.end").after fun cont σ₁ ⟨hcont, hd₁⟩ => ?_
  have hlt := h.framed.current.lt
  have hhangs : (d.append "if.end").Hangs d.block cont :=
    Draft.hangs_append.2 (.inr ⟨rfl, hcont, by rw [hcont]; omega⟩)
  have hpend₁ : (d.append "if.end").pending = cont :: d.pending := by
    rw [Draft.pending_append, hcont]
  have hmem₁ : cont ∈ (d.append "if.end").pending := hpend₁ ▸ List.mem_cons_self
  have ha₁ : (d.append "if.end").Admits (.jump cont) :=
    Draft.admits_jump.2 ⟨d.block, hhangs, .refl⟩
  rw [Stmt.Accepted, ← Reached.callable_eq h hd₁]
  refine arm_then hd₁.ready hbody hmem₁ ha₁ fun σ₂ d₂ hd₂ hc₂ => ?_
  rw [← Reached.callable_eq hd₁.ready hd₂.toReached]
  refine (helifs cont σ₂ d₂ hd₂.ready (hd₂.pending ▸ hmem₁) (hd₂.admits hd₁.ready ha₁)).bind
    fun _ σ₃ ⟨d₃, hd₃, hc₃⟩ => ?_
  rw [← Reached.callable_eq hd₂.ready hd₃.toReached]
  refine (hotherwise σ₃ d₃ hd₃.ready).before fun _ σ₄ ⟨d₄, hd₄, hc₄⟩ => ?_
  have hall := (hd₂.trans hd₃).trans hd₄
  have hmem₄ : cont ∈ d₄.pending := hall.pending ▸ hmem₁
  refine (close_spec hd₄.ready (t := .jump cont) (hd₄.ready.framed.target hmem₄) Draft.serves_nil
    (hall.admits hd₁.ready ha₁) hmem₄).imp fun _ σ₅ hd₅ => ?_
  have hend := hall.toReached.trans hd₅
  refine ⟨_, ⟨hd₁.trans hend, ?_, .single (hhangs.le (hend.le hd₁.ready))⟩, fun x D hs => ?_⟩
  · rw [Draft.pending_goto, Draft.pending_close, hall.pending, hpend₁, List.erase_cons_head]
  · have hs₄ := hs.before hd₄.ready hd₅
    have hs₃ := hs₄.before hd₃.ready hd₄.toReached
    obtain ⟨onTrue, next, k, k', htest, hfirst, hfails⟩ :=
      hc₂ x D (hs₃.before hd₂.ready hd₃.toReached)
    have harms := hc₃ x D hs₃
    have hjoin := Draft.closed_goto_of_le hd₄.ready.framed.current hs.le
    rw [Draft.cursor_append h.framed.current] at htest
    rw [hfails] at harms
    rw [← hs.function] at hjoin
    rw [hd₄.ready.framed.cursor_close _ hmem₄]
    exact ⟨onTrue, next, k, htest, hfirst, rfl, k', _, _, harms, hc₄ x D hs₄, hjoin⟩

/-- Control comes back to the head of a loop, which has an end by then. -/
theorem loop_spec (h : Ready params σ d) {cond : Expr} {body : List Stmt}
    (hbody : Lowers params body) :
    Spec (stmt (.loop cond body)) σ
      (Stmt.Accepted (Callable σ.builder.module) (.loop cond body))
      (Writes params σ d fun x => StmtCode x (.loop cond body)) := by
  refine append_three_then h "while.cond" "while.body" "while.end"
    fun head work after σ₁ d₁ hd₁ hpend₁ hnodup hmade hcur₁ => ?_
  obtain ⟨⟨hhw, hha⟩, hwa⟩ : (head ≠ work ∧ head ≠ after) ∧ work ≠ after := by simpa using hnodup
  have hhead : head ∈ d₁.pending := by simp [hpend₁]
  have hhead₁ := hd₁.ready.framed.target hhead
  rw [Stmt.Accepted, ← Reached.callable_eq h hd₁]
  refine close_then hd₁.ready (t := .jump head) hhead₁ Draft.serves_nil
    (hmade head (by simp)).2 hhead fun σ₂ hd₂ => ?_
  rw [← Reached.callable_eq hd₁.ready hd₂]
  refine (expr_spec cond hd₂.ready).bind fun v σ₃ ⟨d₃, hd₃, hv₃, hc₃⟩ => ?_
  rw [← Reached.callable_eq hd₂.ready hd₃.toReached]
  refine (zeroTest_spec hd₃.ready hv₃ false).after fun c σ₄ ⟨d₄, hd₄, hv₄, hc₄⟩ => ?_
  rw [← Reached.callable_eq hd₃.ready hd₄.toReached]
  have hcond := hd₃.trans hd₄
  have hle₄ := (hd₂.trans hcond.toReached).le hd₁.ready
  have hpend₄ : d₄.pending = after :: work :: d.pending := by
    rw [hcond.pending, Draft.pending_goto, Draft.pending_close, hpend₁]
    simp [hha.symm, hhw.symm]
  have hwork : work ∈ d₄.pending := by simp [hpend₄]
  have ha₄ : ∀ b ∈ [head, work, after], d₄.Admits (.jump b) := fun b hb =>
    Draft.admits_jump.2 ⟨d.block, (hmade b hb).1.le hle₄,
      .trans (.single ((hmade head (by simp)).1.le hle₄)) hcond.below⟩
  refine close_then hd₄.ready (t := .branch c work after)
    ⟨hv₄.value nofun, hd₄.ready.framed.target hwork, hd₄.ready.framed.target (by simp [hpend₄])⟩
    (by simpa [Terminator.needs] using hv₄)
    (Draft.admits_branch.2 ⟨ha₄ work (by simp), ha₄ after (by simp)⟩) hwork fun σ₅ hd₅ => ?_
  rw [← Reached.callable_eq hd₄.ready hd₅]
  refine (hbody σ₅ _ hd₅.ready).before fun _ σ₆ ⟨d₆, hd₆, hc₆⟩ => ?_
  have hpend₆ : d₆.pending = after :: d.pending := by
    rw [hd₆.pending, Draft.pending_goto, Draft.pending_close, hpend₄]
    simp [hwa.symm]
  have hafter : after ∈ d₆.pending := by simp [hpend₆]
  have hround := ((hd₂.trans hcond.toReached).trans hd₅).trans hd₆.toReached
  have hle₆ := hround.le hd₁.ready
  have ha₆ : d₆.Admits (.jump head) := Draft.admits_jump.2 ⟨d.block, (hmade head (by simp)).1.le hle₆,
    .trans (.single ((hmade work (by simp)).1.le hle₆)) hd₆.below⟩
  refine (close_spec hd₆.ready (t := .jump head) (hhead₁.built hd₁.ready.framed hround.built)
    Draft.serves_nil ha₆ hafter).imp fun _ σ₇ hd₇ => ?_
  refine ⟨_, ⟨(hd₁.trans hround).trans hd₇, by simp [hpend₆],
    .single (((hmade after (by simp)).1.le hle₆).le (hd₇.le hd₆.ready))⟩, fun x D hs => ?_⟩
  have hs₆ := hs.before hd₆.ready hd₇
  have hs₅ := hs₆.before hd₅.ready hd₆.toReached
  have hs₄ := hs₅.before hd₄.ready hd₅
  have hs₃ := hs₄.before hd₃.ready hd₄.toReached
  have henter := Draft.closed_goto_of_le hd₁.ready.framed.current
    (hs₃.before hd₂.ready hd₃.toReached).le
  have hvalue := hc₃ x D hs₃
  have hcode := hc₆ x D hs₆
  have hfork := Draft.closed_goto_of_le hd₄.ready.framed.current hs₅.le
  have hback := Draft.closed_goto_of_le hd₆.ready.framed.current hs.le
  rw [hcur₁] at henter
  rw [hd₁.ready.framed.cursor_close _ hhead] at hvalue
  rw [hd₄.ready.framed.cursor_close _ hwork] at hcode
  rw [← hs.function] at henter hfork hback
  rw [hd₆.ready.framed.cursor_close _ hafter]
  exact ⟨head, _, work, henter, ⟨v, _, c, _, hvalue, hc₄ x D hs₄, hfork⟩, rfl, _, _, hcode, hback⟩

/-- Printing calls the routine with the number of its arguments first. -/
theorem print_spec (h : Ready params σ d) (args : List Expr) :
    Spec (stmt (.print args)) σ (Stmt.Accepted (Callable σ.builder.module) (.print args))
      (Writes params σ d fun x => StmtCode x (.print args)) := by
  refine (declare_spec h (r := printRoutine) (.inl rfl)).after fun f σ₁ ⟨hd₁, hroutine, hfind⟩ => ?_
  obtain ⟨g, hg, hhead⟩ := hroutine
  rw [Stmt.Accepted, ← Reached.callable_eq h hd₁.toReached]
  refine (exprs_spec args hd₁.ready).before fun vs σ₂ ⟨d₂, hd₂, hv₂, hlen, hc₂⟩ => ?_
  have htakes : Draft.Takes σ₁.builder.module f (vs.length + 1) := by
    have hparams : g.paramCount = 1 := (congrArg Function.paramCount hhead :)
    have hvariadic : g.variadic = true := (congrArg Function.variadic hhead :)
    exact ⟨g, hg, .inr ⟨hvariadic, by omega⟩⟩
  have hcounted : Draft.Counted σ₁.builder.module f (.int (Int32.ofNat args.length) :: vs) :=
    ⟨g, hg, fun _ => ⟨vs, by rw [hlen]⟩⟩
  have hargs : ∀ v ∈ Operand.int (Int32.ofNat args.length) :: vs, d₂.Has v .i32 := by
    intro v hv
    rcases List.mem_cons.1 hv with rfl | hv
    · rfl
    · exact hv₂ v hv
  have hkept := hd₂.built.grows.retains
  refine (call_spec hd₂.ready (htakes.retains hkept) (hcounted.retains hkept) hargs).after
    fun u σ₃ ⟨d₃, hd₃, hv₃, hc₃⟩ => ?_
  refine .pure ⟨d₃, (hd₁.trans hd₂).trans hd₃, fun x D hs => ?_⟩
  have hs₂ := hs.before hd₂.ready hd₃.toReached
  exact ⟨f, vs, _, u, hfind x D (hs₂.before hd₁.ready hd₂.toReached), hc₂ x D hs₂, hc₃ x D hs⟩

end Statements

variable {params : List String}

mutual

theorem stmt_spec : ∀ (s : Stmt) {σ : Lowering} {d : Draft}, Ready params σ d →
    Spec (stmt s) σ (s.Accepted (Callable σ.builder.module)) (Writes params σ d fun x =>
      StmtCode x s)
  | .assign name e, σ, d, h => by
    refine (address_spec h name).after fun p σ₁ ⟨d₁, ha⟩ => ?_
    rw [Stmt.Accepted, ← Reached.callable_eq h ha.proceeds.toReached]
    refine (expr_spec e ha.proceeds.ready).before fun v σ₂ ⟨d₂, hd₂, hv₂, hc₂⟩ => ?_
    have hp := ha.address.le (hd₂.toReached.le ha.proceeds.ready) hd₂.built.grows.retains
    refine (store_spec hd₂.ready hv₂ hp (hd₂.has ha.proceeds.ready ha.has)).imp
      fun _ σ₃ ⟨d₃, hd₃, hc₃⟩ => ⟨d₃, (ha.proceeds.trans hd₂).trans hd₃, fun x D hs => ?_⟩
    have hs₂ := hs.before hd₂.ready hd₃.toReached
    exact ⟨p, _, v, _, ha.settled x D (hs₂.before ha.proceeds.ready hd₂.toReached), ha.waits D,
      hc₂ x D hs₂, hc₃ x D hs⟩
  | .eval e, σ, d, h => by
    refine (expr_spec e h).before fun v σ₁ ⟨d₁, hd₁, hv₁, hc₁⟩ => ?_
    exact .pure ⟨d₁, hd₁, fun x D hs => ⟨v, hc₁ x D hs⟩⟩
  | .branch _ body elifs otherwise, _, _, h =>
    branch_spec h (fun _ _ => stmts_spec body) (fun _ _ _ => arms_spec elifs)
      (fun _ _ => stmts_spec otherwise)
  | .loop _ body, _, _, h => loop_spec h fun _ _ => stmts_spec body
  | .print args, _, _, h => print_spec h args
  | .ret e, σ, d, h => by
    refine (expr_spec e h).before fun v σ₁ ⟨d₁, hd₁, hv₁, hc₁⟩ => ?_
    refine (leave_spec hd₁.ready hv₁).imp fun _ σ₂ ⟨d₂, hd₂, hc₂⟩ =>
      ⟨d₂, hd₁.trans hd₂, fun x D hs => ?_⟩
    exact ⟨v, _, hc₁ x D (hs.before hd₁.ready hd₂.toReached), hc₂ x D hs⟩
  | .pass, σ, d, h => .pure ⟨d, .refl h, fun _ _ _ => rfl⟩

theorem stmts_spec : ∀ (ss : List Stmt) {σ : Lowering} {d : Draft}, Ready params σ d →
    Spec (stmts ss) σ (Stmts.Accepted (Callable σ.builder.module) ss) (Writes params σ d
      fun x => StmtsCode x ss)
  | [], σ, d, h => .pure ⟨d, .refl h, fun _ _ _ => rfl⟩
  | s :: ss, σ, d, h => by
    refine (stmt_spec s h).bind fun _ σ₁ ⟨d₁, hd₁, hc₁⟩ => ?_
    rw [← Reached.callable_eq h hd₁.toReached]
    refine (stmts_spec ss hd₁.ready).imp fun _ σ₂ ⟨d₂, hd₂, hc₂⟩ =>
      ⟨d₂, hd₁.trans hd₂, fun x D hs => ?_⟩
    exact ⟨_, hc₁ x D (hs.before hd₁.ready hd₂.toReached), hc₂ x D hs⟩

theorem arms_spec : ∀ (as : List (Expr × List Stmt)) {cont : Nat} {σ : Lowering} {d : Draft},
    Ready params σ d → cont ∈ d.pending → d.Admits (.jump cont) →
    Spec (arms as cont) σ (Arms.Accepted (Callable σ.builder.module) as)
      (Writes params σ d fun x a b => ArmsCode x as a cont b)
  | [], cont, σ, d, h, _, _ => .pure ⟨d, .refl h, fun _ _ _ => rfl⟩
  | (cond, body) :: rest, cont, σ, d, h, hcont, hadmits => by
    refine arm_then h (fun _ _ => stmts_spec body) hcont hadmits fun σ₁ d₁ hd₁ hc₁ => ?_
    rw [← Reached.callable_eq h hd₁.toReached]
    refine (arms_spec rest hd₁.ready (hd₁.pending ▸ hcont) (hd₁.admits h hadmits)).imp
      fun _ σ₂ ⟨d₂, hd₂, hc₂⟩ => ⟨d₂, hd₁.trans hd₂, fun x D hs => ?_⟩
    obtain ⟨onTrue, next, k, k', htest, hfirst, hfails⟩ :=
      hc₁ x D (hs.before hd₁.ready hd₂.toReached)
    have hrest := hc₂ x D hs
    rw [hfails] at hrest
    exact ⟨onTrue, next, k, htest, hfirst, k', hrest⟩

end
end IntLang.Lower
