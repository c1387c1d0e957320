import IntLang.Flow.Builder
import IntLang.Proofs.Modules

/-! Drafts: a function under construction as plain lists. The slots stand apart from the blocks, so
that adding one does not move what is in the entry block. Every building step is an equation on
drafts. -/
namespace IntLang.Flow

theorem perm_flatMap_set {α β : Type} {g : α → List β} {a a' : α} {new : List β}
    (hnew : (g a').Perm (new ++ g a)) {l : List α} {k : Nat} (h : l[k]? = some a) :
    ((l.set k a').flatMap g).Perm (new ++ l.flatMap g) := by
  induction l generalizing k with
  | nil => cases h
  | cons x l ih =>
    cases k with
    | zero =>
      obtain rfl := Option.some.inj h
      simpa using hnew.append_right (l.flatMap g)
    | succ k =>
      simp only [List.set_cons_succ, List.flatMap_cons]
      exact ((ih h).append_left (g x)).trans (List.perm_append_comm_assoc _ _ _)

namespace Function

def placed (f : Function) : List InstrId :=
  f.blocks.toList.flatMap (·.instrs.toList)

theorem placed_set {f g : Function} {b : BlockId} {blk blk' : Block} {new : List InstrId}
    (hb : f.blocks[b]? = some blk) (hg : g.blocks = f.blocks.setIfInBounds b blk')
    (hnew : blk'.instrs.toList.Perm (new ++ blk.instrs.toList)) : g.placed.Perm (new ++ f.placed) := by
  rw [placed, placed, hg, Array.toList_setIfInBounds]
  exact perm_flatMap_set (g := fun x : Block => x.instrs.toList) hnew (by simpa using hb)

end Function

structure Piece where
  name : String
  parent : Nat := 0
  instrs : List InstrId := []
  terminator : Option Terminator := none

structure Draft where
  head : Function
  code : List Instr := []
  slots : List (InstrId × Operand) := []
  blocks : List Piece := []
  block : Nat := 0
  pending : List Nat := []

namespace Draft
variable {d : Draft}

def opening (d : Draft) (b : Nat) : List InstrId :=
  if b = 0 then d.slots.map (·.1) ++ d.slots.map (·.1 + 1) else []

def blockAt (d : Draft) (b : Nat) (p : Piece) : Block :=
  ⟨p.name, (d.opening b ++ p.instrs).toArray, p.terminator⟩

def function (d : Draft) : Function :=
  { d.head with instrs := d.code.toArray, blocks := (d.blocks.mapIdx d.blockAt).toArray }

def push (d : Draft) (i : Instr) : Draft :=
  { d with
    code := d.code ++ [i]
    blocks := d.blocks.modify d.block fun p => { p with instrs := p.instrs ++ [d.code.length] } }

def append (d : Draft) (name : String) : Draft :=
  { d with
    blocks := d.blocks ++ [{ name := Builder.blockName d.function name, parent := d.block }]
    pending := d.blocks.length :: d.pending }

def close (d : Draft) (t : Terminator) : Draft :=
  { d with blocks := d.blocks.modify d.block ({ · with terminator := some t }) }

def goto (d : Draft) (b : Nat) : Draft :=
  { d with block := b, pending := d.pending.erase b }

def slot (d : Draft) (name : String) (init : Operand) : Draft :=
  { d with
    code := d.code ++ [.alloca name, .store init (.instr d.code.length)]
    slots := d.slots ++ [(d.code.length, init)] }

/-- A truth value from an integer, with a block for each outcome and one that joins them. -/
def zeroTest (d : Draft) (v : Operand) (whenZero : Bool) : Draft :=
  let z := d.blocks.length
  let made := ((d.append "zero").append "nonzero").append "zero.cont"
  let asked := (made.push (.compare .eq (.int 0) v)).close (.branch (.instr d.code.length) z (z + 1))
  let left := (asked.goto z).close (.jump (z + 2))
  let right := (left.goto (z + 1)).close (.jump (z + 2))
  (right.goto (z + 2)).push (.phi .i1 [(.bool whenZero, z), (.bool !whenZero, z + 1)])

/-- The current block is there and has no end. -/
def Open (d : Draft) : Prop :=
  ∃ p, d.blocks[d.block]? = some p ∧ p.terminator = none

theorem function_blocks (d : Draft) (b : Nat) :
    d.function.blocks[b]? = (d.blocks[b]?).map (d.blockAt b) := by
  simp [function]

@[simp] theorem size_blocks (d : Draft) : d.function.blocks.size = d.blocks.length := by
  simp [function]

@[simp] theorem function_instrs (d : Draft) : d.function.instrs = d.code.toArray := rfl

@[simp] theorem header_function (d : Draft) : d.function.header = d.head.header := rfl

/-- Two functions with one header and the same look-ups are equal. -/
theorem function_eq {f : Function} (hh : d.head.header = f.header) (hi : d.code.toArray = f.instrs)
    (hb : ∀ b, (d.blocks[b]?).map (d.blockAt b) = f.blocks[b]?) : d.function = f := by
  have hblocks : d.function.blocks = f.blocks := by
    apply Array.ext_getElem?
    intro b
    rw [function_blocks, hb]
  have hinstrs : d.function.instrs = f.instrs := hi
  cases f
  simp only [Function.header, function, Function.mk.injEq] at *
  simp_all

@[simp] theorem opening_push (i : Instr) (b : Nat) : (d.push i).opening b = d.opening b := rfl

@[simp] theorem opening_close (t : Terminator) (b : Nat) :
    (d.close t).opening b = d.opening b := rfl

@[simp] theorem opening_append (name : String) (b : Nat) :
    (d.append name).opening b = d.opening b := rfl

theorem blocks_push (i : Instr) (b : Nat) :
    (d.push i).blocks[b]? = (d.blocks[b]?).map fun p =>
      if d.block = b then { p with instrs := p.instrs ++ [d.code.length] } else p := by
  simp only [push, List.getElem?_modify]
  rfl

theorem blocks_close (t : Terminator) (b : Nat) :
    (d.close t).blocks[b]? = (d.blocks[b]?).map fun p =>
      if d.block = b then { p with terminator := some t } else p := by
  simp only [close, List.getElem?_modify]
  rfl

theorem function_push {p : Piece} (hp : d.blocks[d.block]? = some p) (i : Instr) :
    (d.push i).function = { d.function with
      instrs := d.function.instrs.push i
      blocks := d.function.blocks.setIfInBounds d.block
        { d.blockAt d.block p with
          instrs := (d.blockAt d.block p).instrs.push d.function.instrs.size } } := by
  have hlt := (List.getElem?_eq_some_iff.1 hp).1
  refine function_eq rfl (by simp [push]) fun b => ?_
  rw [blocks_push, Array.getElem?_setIfInBounds, function_blocks]
  by_cases hb : d.block = b
  · subst hb
    rw [hp]
    simp [hlt, blockAt]
  · simp only [if_neg hb, Option.map_map]
    rfl

theorem function_close {p : Piece} (hp : d.blocks[d.block]? = some p) (t : Terminator) :
    (d.close t).function = { d.function with
      blocks := d.function.blocks.setIfInBounds d.block
        { d.blockAt d.block p with terminator := some t } } := by
  have hlt := (List.getElem?_eq_some_iff.1 hp).1
  refine function_eq rfl rfl fun b => ?_
  rw [blocks_close, Array.getElem?_setIfInBounds, function_blocks]
  by_cases hb : d.block = b
  · subst hb
    rw [hp]
    simp [hlt, blockAt]
  · simp only [if_neg hb, Option.map_map]
    rfl

theorem blocks_append (name : String) (b : Nat) :
    (d.append name).blocks[b]? = if b = d.blocks.length then
      some { name := Builder.blockName d.function name, parent := d.block } else d.blocks[b]? := by
  simp only [append, List.getElem?_append, List.getElem?_singleton]
  by_cases hb : b = d.blocks.length
  · simp [hb]
  · by_cases hlt : b < d.blocks.length
    · simp [hb, hlt]
    · have hne : b - d.blocks.length ≠ 0 := fun h =>
        hb (Nat.le_antisymm (Nat.sub_eq_zero_iff_le.1 h) (Nat.le_of_not_lt hlt))
      simp [hb, hlt, hne]

theorem function_append (h : d.blocks ≠ [] ∨ d.slots = []) (name : String) :
    (d.append name).function = { d.function with
      blocks := d.function.blocks.push { name := Builder.blockName d.function name } } := by
  refine function_eq rfl rfl fun b => ?_
  rw [blocks_append, Array.getElem?_push, function_blocks, size_blocks]
  by_cases hb : b = d.blocks.length
  · have hnil : (d.append name).opening b = [] := by
      rw [opening_append, opening]
      split
      · next h0 =>
        have hs : d.slots = [] := h.resolve_left fun hne =>
          hne (List.length_eq_zero_iff.1 (hb.symm.trans h0))
        simp [hs]
      · rfl
    simp only [if_pos hb, Option.map_some, blockAt, hnil]
    rfl
  · simp only [if_neg hb]
    rfl

theorem insertIdx_length_append {α : Type} (l r : List α) (a : α) :
    (l ++ r).insertIdx l.length a = l ++ a :: r := by
  induction l with
  | nil => rfl
  | cons x l ih => simpa using ih

/-- A slot and its store go to the ends of the slots and of the stores. -/
theorem insertIdx_opening {α : Type} {l r : List α} (h : r.length = l.length) (rest : List α) (a b : α) :
    ((l ++ r ++ rest).insertIdx l.length a).insertIdx (l.length + 1 + l.length) b =
      (l ++ [a]) ++ (r ++ [b]) ++ rest := by
  have hsecond := insertIdx_length_append (l ++ a :: r) rest b
  rw [List.length_append, List.length_cons, h] at hsecond
  rw [List.append_assoc, insertIdx_length_append,
    show l.length + 1 + l.length = l.length + (l.length + 1) by omega]
  simpa using hsecond

theorem function_slot {p : Piece} (hp : d.blocks[0]? = some p) (name : String) (init : Operand) :
    (d.slot name init).function = { d.function with
      instrs := (d.function.instrs.push (.alloca name)).push
        (.store init (.instr d.function.instrs.size))
      blocks := d.function.blocks.setIfInBounds 0
        { d.blockAt 0 p with
          instrs := ((d.blockAt 0 p).instrs.insertIdxIfInBounds d.slots.length
            d.function.instrs.size).insertIdxIfInBounds (d.slots.length + 1 + d.slots.length)
            (d.function.instrs.size + 1) } } := by
  have hlt := (List.getElem?_eq_some_iff.1 hp).1
  have horder : ((d.opening 0 ++ p.instrs).insertIdx d.slots.length d.code.length).insertIdx
      (d.slots.length + 1 + d.slots.length) (d.code.length + 1) =
      (d.slot name init).opening 0 ++ p.instrs := by
    have h := insertIdx_opening (l := d.slots.map (·.1)) (r := d.slots.map (·.1 + 1)) (by simp)
      p.instrs d.code.length (d.code.length + 1)
    simpa [opening, slot] using h
  refine function_eq rfl (by simp [slot]) fun b => ?_
  rw [Array.getElem?_setIfInBounds, function_blocks]
  change ((d.blocks[b]?).map ((d.slot name init).blockAt b)) = _
  by_cases hb : 0 = b
  · subst hb
    rw [hp]
    simp [hlt, blockAt, List.insertIdxIfInBounds_toArray, horder]
  · simp only [if_neg hb]
    have hopen : (d.slot name init).blockAt b = d.blockAt b := by
      funext q
      simp [blockAt, opening, Ne.symm hb]
    rw [hopen]

section Fields
variable (d : Draft) (i : Instr) (t : Terminator) (name : String) (b : Nat) (init : Operand)

@[simp] theorem head_push : (d.push i).head = d.head := rfl
@[simp] theorem head_append : (d.append name).head = d.head := rfl
@[simp] theorem head_close : (d.close t).head = d.head := rfl
@[simp] theorem head_goto : (d.goto b).head = d.head := rfl
@[simp] theorem head_slot : (d.slot name init).head = d.head := rfl

@[simp] theorem code_push : (d.push i).code = d.code ++ [i] := rfl
@[simp] theorem code_append : (d.append name).code = d.code := rfl
@[simp] theorem code_close : (d.close t).code = d.code := rfl
@[simp] theorem code_goto : (d.goto b).code = d.code := rfl
@[simp] theorem code_slot : (d.slot name init).code =
    d.code ++ [Instr.alloca name, .store init (.instr d.code.length)] := rfl

@[simp] theorem slots_push : (d.push i).slots = d.slots := rfl
@[simp] theorem slots_append : (d.append name).slots = d.slots := rfl
@[simp] theorem slots_close : (d.close t).slots = d.slots := rfl
@[simp] theorem slots_goto : (d.goto b).slots = d.slots := rfl
@[simp] theorem slots_slot : (d.slot name init).slots = d.slots ++ [(d.code.length, init)] := rfl

@[simp] theorem block_push : (d.push i).block = d.block := rfl
@[simp] theorem block_append : (d.append name).block = d.block := rfl
@[simp] theorem block_close : (d.close t).block = d.block := rfl
@[simp] theorem block_goto : (d.goto b).block = b := rfl
@[simp] theorem block_slot : (d.slot name init).block = d.block := rfl

@[simp] theorem pending_push : (d.push i).pending = d.pending := rfl
@[simp] theorem pending_append : (d.append name).pending = d.blocks.length :: d.pending := rfl
@[simp] theorem pending_close : (d.close t).pending = d.pending := rfl
@[simp] theorem pending_goto : (d.goto b).pending = d.pending.erase b := rfl
@[simp] theorem pending_slot : (d.slot name init).pending = d.pending := rfl

@[simp] theorem length_blocks_push : (d.push i).blocks.length = d.blocks.length := by simp [push]
@[simp] theorem length_blocks_append : (d.append name).blocks.length = d.blocks.length + 1 := by
  simp [append]
@[simp] theorem length_blocks_close : (d.close t).blocks.length = d.blocks.length := by simp [close]
@[simp] theorem blocks_goto : (d.goto b).blocks = d.blocks := rfl
@[simp] theorem blocks_slot : (d.slot name init).blocks = d.blocks := rfl

end Fields

theorem Open.lt (h : d.Open) : d.block < d.blocks.length :=
  h.elim fun _ h => (List.getElem?_eq_some_iff.1 h.1).1

theorem Open.ne_nil (h : d.Open) : d.blocks ≠ [] :=
  List.ne_nil_of_length_pos (Nat.lt_of_le_of_lt (Nat.zero_le _) h.lt)

theorem Open.push (h : d.Open) (i : Instr) : (d.push i).Open := by
  obtain ⟨p, hp, ht⟩ := h
  exact ⟨{ p with instrs := p.instrs ++ [d.code.length] }, by simp [blocks_push, hp], ht⟩

theorem Open.append (h : d.Open) (name : String) : (d.append name).Open := by
  obtain ⟨p, hp, ht⟩ := h
  refine ⟨p, ?_, ht⟩
  rw [block_append, blocks_append, if_neg (Nat.ne_of_lt (Open.lt ⟨p, hp, ht⟩)), hp]

theorem blocks_append_of_lt (name : String) {b : Nat} (hb : b < d.blocks.length) :
    (d.append name).blocks[b]? = d.blocks[b]? := by
  rw [blocks_append, if_neg (Nat.ne_of_lt hb)]

theorem blocks_push_of_ne (i : Instr) {b : Nat} (hb : d.block ≠ b) :
    (d.push i).blocks[b]? = d.blocks[b]? := by
  simp [blocks_push, hb]

theorem blocks_close_of_ne (t : Terminator) {b : Nat} (hb : d.block ≠ b) :
    (d.close t).blocks[b]? = d.blocks[b]? := by
  simp [blocks_close, hb]

/-- A block that has been made and not begun. -/
def Fresh (d : Draft) (b : Nat) : Prop :=
  ∃ name parent, d.blocks[b]? = some { name, parent }

section Fresh
variable {b : Nat}

theorem Fresh.lt (h : d.Fresh b) : b < d.blocks.length :=
  h.elim fun _ h => h.elim fun _ h => (List.getElem?_eq_some_iff.1 h).1

theorem fresh_append (name : String) {n : Nat} (hn : d.blocks.length = n) :
    (d.append name).Fresh n :=
  ⟨_, _, by rw [blocks_append, if_pos hn.symm]⟩

theorem Fresh.append (h : d.Fresh b) (name : String) : (d.append name).Fresh b :=
  h.imp fun _ => Exists.imp fun _ hb => (blocks_append_of_lt name h.lt).trans hb

theorem Fresh.push (h : d.Fresh b) (hb : d.block ≠ b) (i : Instr) : (d.push i).Fresh b :=
  h.imp fun _ => Exists.imp fun _ => (blocks_push_of_ne i hb).trans

theorem Fresh.close (h : d.Fresh b) (hb : d.block ≠ b) (t : Terminator) : (d.close t).Fresh b :=
  h.imp fun _ => Exists.imp fun _ => (blocks_close_of_ne t hb).trans

theorem Fresh.goto (h : d.Fresh b) (b' : Nat) : (d.goto b').Fresh b := h

theorem Fresh.open_goto (h : d.Fresh b) : (d.goto b).Open :=
  h.elim fun _ h => h.elim fun _ h => ⟨_, h, rfl⟩

end Fresh

end Draft
end IntLang.Flow
