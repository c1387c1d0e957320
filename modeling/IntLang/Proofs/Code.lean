import IntLang.Lowering

/-! The code of a syntax tree: which instructions and terminators of a finished function belong to
it, and from where to where control runs through them. Nothing here says how the function was
built. -/
namespace IntLang.Code
open IntLang.Flow IntLang.Machine

/-- A place in a function: a position in a block, and a bound below the indices of all instructions
that were made from there on. -/
structure Cursor where
  block : BlockId
  index : Nat
  fresh : Nat

/-- Position `k` of block `b` holds the instruction `i`, whose index is `id`. -/
def Holds (f : Function) (b : BlockId) (k : Nat) (id : InstrId) (i : Instr) : Prop :=
  ∃ blk, f.blocks[b]? = some blk ∧ blk.instrs[k]? = some id ∧ f.instrs[id]? = some i

/-- Block `b` has `k` instructions and ends in `t`. -/
def Leaves (f : Function) (b : BlockId) (k : Nat) (t : Terminator) : Prop :=
  ∃ blk, f.blocks[b]? = some blk ∧ blk.instrs.size = k ∧ blk.terminator = some t

/-- The instruction `i` stands at `a`, and `b` is the place after it. -/
structure Emitted (f : Function) (a : Cursor) (i : Instr) (id : InstrId) (b : Cursor) : Prop where
  holds : Holds f a.block a.index id i
  block : b.block = a.block
  index : b.index = a.index + 1
  lower : a.fresh ≤ id
  upper : id < b.fresh

/-- The result `v` is that of the one instruction between `a` and `b`. -/
def Single (f : Function) (i : Instr) (a : Cursor) (v : Operand) (b : Cursor) : Prop :=
  ∃ id, Emitted f a i id b ∧ v = .instr id

/-- Block `b` ends here. -/
def Closed (f : Function) (a : Cursor) (t : Terminator) : Prop :=
  Leaves f a.block a.index t

/-- Two places at one position, between which indices may have been given away. -/
structure Cursor.Waits (a b : Cursor) : Prop where
  block : b.block = a.block
  index : b.index = a.index
  fresh : a.fresh ≤ b.fresh

structure Site where
  module : Module
  function : Function
  scope : Scope

def Site.address? (x : Site) (name : String) : Option Operand :=
  match x.scope with
  | .slots known => known.lookup name
  | .globals => (x.module.findGlobal? name).map .global

/-- The function that a call by name with `n` arguments reaches. -/
def Callee (m : Module) (name : String) (n : Nat) (id : FuncId) : Prop :=
  m.find? name = some id ∧ ∃ f, m.function? id = some f ∧ f.synthetic = false ∧ f.paramCount = n

/-- A truth value `c` from an integer `v`: `whenZero` if it is zero and the opposite otherwise. The
two outcomes have a block each, and a third one joins them. -/
def ZeroTest (f : Function) (v : Operand) (whenZero : Bool) (a : Cursor) (c : Operand)
    (b : Cursor) : Prop :=
  ∃ e d onZero onNonzero cont k,
    Single f (.compare .eq (.int 0) v) a e d ∧ Closed f d (.branch e onZero onNonzero) ∧
    onZero ≠ onNonzero ∧
    Leaves f onZero 0 (.jump cont) ∧ Leaves f onNonzero 0 (.jump cont) ∧ a.fresh ≤ k ∧
    Single f (.phi .i1 [(.bool whenZero, onZero), (.bool !whenZero, onNonzero)]) ⟨cont, 0, k⟩ c b

def UnaryCode (f : Function) (op : UnaryOp) (v : Operand) (a : Cursor) (r : Operand)
    (b : Cursor) : Prop :=
  match op with
  | .negate => ∃ ty, Single f (.arith .sub ty (.int 0) v) a r b
  | .identity => r = v ∧ b = a
  | .not => ∃ z d, ZeroTest f v true a z d ∧ Single f (.widen z) d r b

def ArithCode (f : Function) (op : ArithOp) (l r : Operand) (a : Cursor) (v : Operand)
    (b : Cursor) : Prop :=
  ∃ ty, Single f (.arith op ty l r) a v b

def LogicalCode (f : Function) (op : ArithOp) (l r : Operand) (a : Cursor) (v : Operand)
    (b : Cursor) : Prop :=
  ∃ l' r' both d e g, ZeroTest f l false a l' d ∧ ZeroTest f r false d r' e ∧
    ArithCode f op l' r' e both g ∧ Single f (.widen both) g v b

def CompareCode (f : Function) (op : CmpOp) (l r : Operand) (a : Cursor) (v : Operand)
    (b : Cursor) : Prop :=
  ∃ c d, Single f (.compare op l r) a c d ∧ Single f (.widen c) d v b

def BinaryCode (x : Site) (op : BinaryOp) (l r : Operand) (a : Cursor) (v : Operand)
    (b : Cursor) : Prop :=
  match op with
  | .add => ArithCode x.function .add l r a v b
  | .sub => ArithCode x.function .sub l r a v b
  | .mul => ArithCode x.function .mul l r a v b
  | .div => ArithCode x.function .div l r a v b
  | .mod => ArithCode x.function .rem l r a v b
  | .and => LogicalCode x.function .and l r a v b
  | .or => LogicalCode x.function .or l r a v b
  | .pow => ∃ id, x.module.find? powerSymbol = some id ∧ Single x.function (.call id [l, r]) a v b
  | .in_ | .notIn => False
  | .lt => CompareCode x.function .lt l r a v b
  | .gt => CompareCode x.function .gt l r a v b
  | .le => CompareCode x.function .le l r a v b
  | .ge => CompareCode x.function .ge l r a v b
  | .eq => CompareCode x.function .eq l r a v b
  | .ne => CompareCode x.function .ne l r a v b

mutual

/-- The code of an expression runs from `a` to `b`, where `v` is its value. -/
def ExprCode (x : Site) : Expr → Cursor → Operand → Cursor → Prop
  | .number n, a, v, b => v = .int n ∧ b = a
  | .var name, a, v, b => ∃ p, x.address? name = some p ∧ Single x.function (.load p) a v b
  | .unary op e, a, v, b => ∃ u d, ExprCode x e a u d ∧ UnaryCode x.function op u d v b
  | .binary op l r, a, v, b =>
    ∃ u d u' d', ExprCode x l a u d ∧ ExprCode x r d u' d' ∧ BinaryCode x op u u' d' v b
  | .call name args, a, v, b =>
    ∃ id vs d, Callee x.module name args.length id ∧ ExprsCode x args a vs d ∧
      Single x.function (.call id vs) d v b

def ExprsCode (x : Site) : List Expr → Cursor → List Operand → Cursor → Prop
  | [], a, vs, b => vs = [] ∧ b = a
  | e :: es, a, vs, b =>
    ∃ v d us, ExprCode x e a v d ∧ ExprsCode x es d us b ∧ vs = v :: us

end

/-- A condition, tested at `a`: control goes to the start of one of two blocks. -/
def TestCode (x : Site) (cond : Expr) (a : Cursor) (onTrue onFalse : BlockId) : Prop :=
  ∃ v d c e, ExprCode x cond a v d ∧ ZeroTest x.function v false d c e ∧
    Closed x.function e (.branch c onTrue onFalse)

mutual

/-- The code of a statement runs from `a` to `b`, unless it returns. -/
def StmtCode (x : Site) : Stmt → Cursor → Cursor → Prop
  | .assign name e, a, b =>
    ∃ p a' v d, x.address? name = some p ∧ a.Waits a' ∧ ExprCode x e a' v d ∧
      ∃ u, Single x.function (.store v p) d u b
  | .eval e, a, b => ∃ v, ExprCode x e a v b
  | .branch cond body elifs otherwise, a, b =>
    ∃ onTrue next k, TestCode x cond a onTrue next ∧
      (∃ d, StmtsCode x body ⟨onTrue, 0, k⟩ d ∧ Closed x.function d (.jump b.block)) ∧
      b.index = 0 ∧
      ∃ k' d e, ArmsCode x elifs ⟨next, 0, k'⟩ b.block d ∧ StmtsCode x otherwise d e ∧
        Closed x.function e (.jump b.block)
  | .loop cond body, a, b =>
    ∃ head k work, Closed x.function a (.jump head) ∧
      TestCode x cond ⟨head, 0, k⟩ work b.block ∧ b.index = 0 ∧
      ∃ k' d, StmtsCode x body ⟨work, 0, k'⟩ d ∧ Closed x.function d (.jump head)
  | .print args, a, b =>
    ∃ id vs d u, x.module.find? printSymbol = some id ∧ ExprsCode x args a vs d ∧
      Single x.function (.call id (.int (Int32.ofNat args.length) :: vs)) d u b
  | .ret e, a, _ => ∃ v d, ExprCode x e a v d ∧ Closed x.function d (.ret v)
  | .pass, a, b => b = a

def StmtsCode (x : Site) : List Stmt → Cursor → Cursor → Prop
  | [], a, b => b = a
  | s :: ss, a, b => ∃ d, StmtCode x s a d ∧ StmtsCode x ss d b

/-- Arms of a branch, tested from `a` on. Control comes to `b` if all tests fail, and to the start
of `cont` otherwise. -/
def ArmsCode (x : Site) : List (Expr × List Stmt) → Cursor → BlockId → Cursor → Prop
  | [], a, _, b => b = a
  | (cond, body) :: rest, a, cont, b =>
    ∃ onTrue next k, TestCode x cond a onTrue next ∧
      (∃ d, StmtsCode x body ⟨onTrue, 0, k⟩ d ∧ Closed x.function d (.jump cont)) ∧
      ∃ k', ArmsCode x rest ⟨next, 0, k'⟩ cont b

end

/-- The first `slots.length` positions of the entry block create slots and the next ones
initialise them, each with zero or with one of `n` parameters. -/
structure Prologue (f : Function) (n : Nat) (slots : List (InstrId × Operand)) : Prop where
  create : ∀ (j : Nat) id init, slots[j]? = some (id, init) → ∃ name, Holds f 0 j id (.alloca name)
  store : ∀ (j : Nat) id init, slots[j]? = some (id, init) →
    ∃ id', Holds f 0 (slots.length + j) id' (.store init (.instr id))
  init : ∀ (j : Nat) id init, slots[j]? = some (id, init) →
    init = .int 0 ∨ ∃ i, init = .param i ∧ i < n
  distinct : ∀ (i j : Nat) id init init', slots[i]? = some (id, init) →
    slots[j]? = some (id, init') → i = j

/-- What a variable starts with: the last argument for it, or zero. -/
def Starts (params : List String) (name : String) (init : Operand) : Prop :=
  (name ∉ params ∧ init = .int 0) ∨
    ∃ i, init = .param i ∧ params[i]? = some name ∧ ∀ j, i < j → params[j]? ≠ some name

/-- The variables of a body have slots of their own. -/
structure Slotted (params : List String) (slots : List (InstrId × Operand))
    (known : List (String × Operand)) : Prop where
  slot : ∀ name p, known.lookup name = some p →
    ∃ (j : Nat) (id : InstrId) (init : Operand), slots[j]? = some (id, init) ∧ p = .instr id ∧
      Starts params name init
  injective : ∀ name name' p, known.lookup name = some p → known.lookup name' = some p → name = name'

/-- The code of a whole body. -/
def BodyCode (x : Site) (params : List String) (ss : List Stmt) : Prop :=
  ∃ slots, Prologue x.function params.length slots ∧
    (match x.scope with
      | .slots known => Slotted params slots known
      | .globals => slots = []) ∧
    ∃ k b, StmtsCode x ss ⟨0, 2 * slots.length, k⟩ b ∧ Closed x.function b (.ret (.int 0))

end IntLang.Code
