import IntLang.Flow.Basic

/-! The graph of a function's blocks: which blocks precede a block, and which can be reached. -/
namespace IntLang.Flow.Function

/-- Notes that control can go from `source` to `target`, once. -/
def addPredecessor (preds : Array (List BlockId)) (source target : BlockId) :
    Array (List BlockId) :=
  preds.modify target fun ps => if source ∈ ps then ps else ps ++ [source]

def predecessors (f : Function) : Array (List BlockId) :=
  (List.range f.blocks.size).foldl
    (fun preds b => (f.successors b).foldl (fun preds t => addPredecessor preds b t) preds)
    (Array.replicate f.blocks.size [])

/-- Marks every block that can be reached from `stack`, except through blocks already marked. -/
def reachFrom (f : Function) (seen : Array Bool) : List BlockId → Array Bool
  | [] => seen
  | b :: stack =>
    if h : b < seen.size then
      if seen[b] then reachFrom f seen stack
      else reachFrom f (seen.set b true) ((f.successors b).reverse ++ stack)
    else reachFrom f seen stack
termination_by stack => (seen.count false, stack.length)
decreasing_by
  · exact Prod.Lex.right _ (Nat.lt_succ_self _)
  · apply Prod.Lex.left
    have hb : seen[b] = false := by simpa using ‹¬seen[b] = true›
    have : 0 < seen.count false := Array.count_pos_iff.2 (hb ▸ Array.getElem_mem h)
    rw [Array.count_set]
    simp only [hb]
    change seen.count false - 1 + 0 < seen.count false
    omega
  · exact Prod.Lex.right _ (Nat.lt_succ_self _)

def reachable (f : Function) : Array Bool :=
  f.reachFrom (Array.replicate f.blocks.size false) f.entry?.toList

end IntLang.Flow.Function
