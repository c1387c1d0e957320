import IntLang.Proofs.InstrRuns

/-! How arguments get from a caller to a callee. The code of a call leaves the first ones in registers and
the others on the stack, in any function and for any number of them. The entry code of a function moves
those in registers to cells of its frame and finds the others where they are. -/
namespace IntLang.Assembly
open IntLang.Flow

/-- All that lies above the stack pointer is as before, and so is all that lasts. -/
structure Processor.Kept (s s' : Processor) : Prop where
  fp : s'.fp = s.fp
  data : s'.data = s.data
  output : s'.output = s.output
  stack : ∀ a, s.sp ≤ a → s'.stack a = s.stack a

theorem Datum.size_le (x : Datum) : x.size ≤ 8 := by
  cases x <;> simp [Datum.size]

namespace Processor
variable {s s₁ s' : Processor} {x : Datum} {a : Int}

theorem Kept.refl (s : Processor) : s.Kept s :=
  ⟨rfl, rfl, rfl, fun _ _ => rfl⟩

theorem Kept.trans (h : s.Kept s₁) (h' : s₁.Kept s') (hle : s₁.sp ≤ s.sp) : s.Kept s' where
  fp := h'.fp.trans h.fp
  data := h'.data.trans h.data
  output := h'.output.trans h.output
  stack a ha := (h'.stack a (Int.le_trans hle ha)).trans (h.stack a ha)

theorem Alike.kept (h : s.Alike s') : s.Kept s' :=
  ⟨h.fp, h.data, h.output, fun a _ => by rw [h.stack]⟩

theorem stack_push (ha : s.sp ≤ a) : (s.push x).stack a = s.stack a := by
  have hsize := x.size_le
  simp only [push, Stack.write, Stack.forget]
  rw [if_neg (by omega), if_neg (by omega)]

theorem read_push (s : Processor) (x : Datum) : (s.push x).stack.read (s.push x).sp = some x :=
  Stack.read_write_self _ _ x

end Processor

theorem exec_cleanup (s : Processor) (k : Nat) : ∃ s', execAll (Context.cleanup k) s = some s' ∧
    s'.regs = s.regs ∧ s'.stack = s.stack ∧ s'.fp = s.fp ∧ s'.sp = s.sp + Context.room k ∧
      s'.data = s.data ∧ s'.output = s.output := by
  unfold Context.cleanup
  split
  · next hk =>
    refine ⟨s, rfl, rfl, rfl, rfl, ?_, rfl, rfl⟩
    simp [Context.room, hk, Context.padding]
  · exact ⟨_, rfl, rfl, rfl, rfl, rfl, rfl, rfl⟩

theorem exec_lower (s : Processor) (k : Nat) :
    ∃ s', execAll (if k = 0 then [] else [.lowerStack k]) s = some s' ∧ s'.regs = s.regs ∧
      s'.stack = s.stack ∧ s'.fp = s.fp ∧ s'.sp = s.sp - k ∧ s'.data = s.data ∧ s'.output = s.output := by
  split
  · next hk => exact ⟨s, rfl, rfl, rfl, rfl, by simp [hk], rfl, rfl⟩
  · exact ⟨_, rfl, rfl, rfl, rfl, rfl, rfl, rfl⟩

/-- The arguments `ns` are where a callee looks for them. -/
structure Passed (ns : List Int32) (s s' : Processor) : Prop extends s.Kept s' where
  sp : s'.sp = s.sp - Context.room ns.length
  args : ∀ i n, ns[i]? = some n → s'.arg i = some n

/-- A place holds `n` as long as nothing above the stack pointer changes. -/
def Processor.Shows (s : Processor) (p : Place) (n : Int32) : Prop :=
  ∀ s' : Processor, s.Kept s' → s'.read p = some n

theorem Processor.shows_frame {s : Processor} {offset : Int} {n : Int32} (hle : s.sp ≤ s.fp + offset)
    (h : s.read (.frame offset) = some n) : s.Shows (.frame offset) n := by
  intro s' hs'
  rw [read, hs'.fp]
  exact Stack.word?_congr h fun a ha => hs'.stack a (Int.le_trans hle ha)

/-- With nothing but the frame on the stack, what an operand stands for is not lost by pushing. -/
theorem Context.shows_of_place? {m : Module} {id : FuncId} {f : Function} {v : Operand} {p : Place}
    {s : Processor} {n : Int32} (hp : (ofFunction m id f).place? v = some p)
    (hsp : s.sp = s.fp - (ofFunction m id f).layout.size) (h : s.read p = some n) : s.Shows p n := by
  have hsound : (ofFunction m id f).layout.Sound := Layout.sound_ofFunction f
  cases v with
  | int k =>
    obtain rfl := Option.some.inj hp
    exact fun _ _ => h
  | bool b =>
    obtain rfl := Option.some.inj hp
    exact fun _ _ => h
  | global g =>
    obtain ⟨x, -, rfl⟩ := place?_global.1 hp
    exact fun s' hs' => (congrFun hs'.data x.name).trans h
  | param i =>
    obtain rfl := Option.some.inj hp
    rw [Layout.param_eq] at h ⊢
    have hle := hsound.le_paramOffset i
    exact Processor.shows_frame (by omega) h
  | instr k =>
    obtain ⟨cell, hcell, rfl⟩ := Layout.result?_eq_some.1 hp
    have hle := (hsound.le_offset hcell).1
    exact Processor.shows_frame (by omega) h

section Passing
variable {s₀ s : Processor} {ps : List Place} {ns : List Int32}

theorem exec_pushes (h : s₀.Kept s) (hle : s.sp ≤ s₀.sp) (hps : List.Forall₂ s₀.Shows ps ns) :
    ∃ s', execAll (ps.flatMap fun p => [.load p .eax, .pushAcc]) s = some s' ∧ s.Kept s' ∧
      s'.sp = s.sp - (8 * ns.length : Nat) ∧
      ∀ i n, ns.reverse[i]? = some n → s'.stack.word? (s'.sp + (8 * i : Nat)) = some n := by
  induction hps generalizing s with
  | nil => exact ⟨s, rfl, .refl s, by simp, by simp⟩
  | @cons p n ps ns hp _ ih =>
    have hexec : execAll [.load p .eax, .pushAcc] s = some ((s.set .eax n).push (.word n)) := by
      simp [execAll, Ins.exec, hp s h]
    have hkept : s.Kept ((s.set .eax n).push (.word n)) :=
      ⟨rfl, rfl, rfl, fun _ ha => Processor.stack_push (s := s.set .eax n) ha⟩
    have hsp₁ : ((s.set .eax n).push (.word n)).sp = s.sp - 8 := rfl
    have htop := (s.set .eax n).read_push (.word n)
    generalize (s.set .eax n).push (.word n) = s₁ at hexec hkept hsp₁ htop
    obtain ⟨s', hrest, hkept', hsp', hget⟩ := ih (h.trans hkept hle) (by omega)
    refine ⟨s', ?_, hkept.trans hkept' (by omega), ?_, fun i k hk => ?_⟩
    · rw [List.flatMap_cons, execAll_append, hexec]
      exact hrest
    · rw [hsp', hsp₁, List.length_cons]
      omega
    · rw [List.reverse_cons, List.getElem?_append] at hk
      split at hk
      · exact hget i k hk
      · next hge =>
        obtain ⟨hi, hk⟩ := List.getElem?_eq_some_iff.1 hk
        rw [List.length_singleton] at hi
        rw [List.length_reverse] at hge hi
        have haddr : s'.sp + (8 * i : Nat) = s₁.sp := by omega
        rw [haddr]
        obtain rfl : n = k := by simpa [show i - ns.reverse.length = 0 by simp; omega] using hk
        exact Stack.word?_congr (Stack.word?_eq_some.2 htop) hkept'.stack

theorem exec_loads (h : s₀.Kept s) (hle : s.sp ≤ s₀.sp) (hps : List.Forall₂ s₀.Shows ps ns)
    {rs : List Reg} (hrs : rs.Nodup) :
    ∃ s', execAll ((ps.zip rs).map fun (p, r) => .load p r) s = some s' ∧ s.Alike s' ∧
      (∀ (i : Nat) n r, ns[i]? = some n → rs[i]? = some r → s'.regs r = some n) ∧
      ∀ r ∉ rs, s'.regs r = s.regs r := by
  induction hps generalizing s rs with
  | nil => exact ⟨s, rfl, ⟨rfl, rfl, rfl, rfl, rfl⟩, by simp, fun _ _ => rfl⟩
  | @cons p n ps ns hp _ ih =>
    cases rs with
    | nil => exact ⟨s, rfl, ⟨rfl, rfl, rfl, rfl, rfl⟩, by simp, fun _ _ => rfl⟩
    | cons r rs =>
      obtain ⟨hr, hrs⟩ := List.nodup_cons.1 hrs
      obtain ⟨s', hexec, hsame, hget, hother⟩ := ih (s := s.set r n)
        (h.trans ⟨rfl, rfl, rfl, fun _ _ => rfl⟩ hle) hle hrs
      refine ⟨s', ?_, ⟨hsame.stack, hsame.fp, hsame.sp, hsame.data, hsame.output⟩, fun i k r' hk hr' => ?_,
        fun r' hr' => ?_⟩
      · simp only [List.zip_cons_cons, List.map_cons, execAll, Ins.exec, hp s h, Option.map_some,
          Option.bind_some]
        exact hexec
      · cases i with
        | zero =>
          obtain rfl : n = k := Option.some.inj hk
          obtain rfl : r = r' := Option.some.inj hr'
          rw [hother r hr, Processor.regs_set, if_pos rfl]
        | succ i => exact hget i k r' hk hr'
      · rw [List.mem_cons, not_or] at hr'
        rw [hother r' hr'.2, Processor.regs_set, if_neg hr'.1]

theorem exec_passing (hps : List.Forall₂ s.Shows ps ns) (target : Function) :
    ∃ s', execAll (Context.passing target ps) s = some s' ∧ Passed ns s s' ∧
      (target.variadic = true → s'.regs .eax = some 0) := by
  have hlen := hps.length_eq
  obtain ⟨s₁, hexec₁, -, hstack₁, hfp₁, hsp₁, hdata₁, hout₁⟩ :=
    exec_lower s (Context.padding (ps.length - argRegs.length))
  have hkept₁ : s.Kept s₁ := ⟨hfp₁, hdata₁, hout₁, fun a _ => by rw [hstack₁]⟩
  obtain ⟨s₂, hexec₂, hkept₂, hsp₂, hget₂⟩ := exec_pushes hkept₁ (by omega)
    (List.forall₂_reverse_iff.2 (List.forall₂_drop argRegs.length hps))
  rw [List.length_reverse, List.length_drop] at hsp₂
  have hkept := hkept₁.trans hkept₂ (by omega)
  obtain ⟨s₃, hexec₃, hsame, hget₃, -⟩ := exec_loads hkept (by omega)
    (List.forall₂_take argRegs.length hps) (by decide : argRegs.Nodup)
  obtain ⟨s', hexec', hsame', hregs, hacc⟩ : ∃ s',
      execAll (if target.variadic then [.clearAcc] else []) s₃ = some s' ∧ s₃.Alike s' ∧
        (∀ r ≠ Reg.eax, s'.regs r = s₃.regs r) ∧ (target.variadic = true → s'.regs .eax = some 0) := by
    split
    · exact ⟨_, rfl, ⟨rfl, rfl, rfl, rfl, rfl⟩, fun r hr => by simp [hr], fun _ => by simp⟩
    · next hv => exact ⟨s₃, rfl, ⟨rfl, rfl, rfl, rfl, rfl⟩, fun _ _ => rfl, fun hv' => absurd hv' hv⟩
  have hkept₃ := hsame.kept.trans hsame'.kept (by rw [hsame.sp])
  refine ⟨s', ?_, ⟨hkept.trans hkept₃ (by omega), ?_, fun i n hi => ?_⟩, hacc⟩
  · rw [Context.passing, execAll_append, execAll_append, execAll_append, hexec₁, Option.bind_some,
      hexec₂, Option.bind_some, hexec₃]
    exact hexec'
  · rw [hsame'.sp, hsame.sp, hsp₂, hsp₁, Context.room, ← hlen]
    omega
  · unfold Processor.arg
    split
    · next r hr =>
      obtain ⟨hlt, -⟩ := List.getElem?_eq_some_iff.1 hr
      rw [hregs r (by rintro rfl; exact absurd (List.mem_of_getElem? hr) (by decide))]
      exact hget₃ i n r (by rw [List.getElem?_take_of_lt hlt, hi]) hr
    · next hr =>
      have hge := List.getElem?_eq_none_iff.1 hr
      rw [hsame'.stack, hsame.stack, hsame'.sp, hsame.sp]
      apply hget₂
      rw [List.reverse_reverse, List.getElem?_drop, Nat.add_sub_cancel' hge]
      exact hi

end Passing

section Entry
variable {s : Processor} {ns : List Int32} {xs : List (Nat × Reg)}

def Processor.found (s : Processor) (i : Nat) : Option Int32 :=
  match argRegs[i]? with
  | some r => s.regs r
  | none => s.stack.word? (s.sp + (8 + 8 * (i - argRegs.length) : Nat))

/-- Arguments are found behind the return address. -/
theorem Processor.found_push {i : Nat} {n : Int32} (h : s.arg i = some n) (x : Datum) :
    (s.push x).found i = some n := by
  unfold arg at h
  unfold found
  cases hr : argRegs[i]? with
  | some r => rwa [hr] at h
  | none =>
    rw [hr] at h
    have haddr : (s.push x).sp + (8 + 8 * (i - argRegs.length) : Nat) =
        s.sp + (8 * (i - argRegs.length) : Nat) := by
      simp only [Processor.push]
      omega
    dsimp only
    rw [haddr]
    exact Stack.word?_congr h fun a ha => Processor.stack_push (by omega)

/-- The arguments `ns` are where a function finds them on entry. -/
def Processor.Finds (s : Processor) (ns : List Int32) : Prop :=
  ∀ i n, ns[i]? = some n → s.found i = some n

theorem Passed.finds {s' : Processor} (h : Passed ns s s') (x : Datum) : (s'.push x).Finds ns :=
  fun i n hi => Processor.found_push (h.args i n hi) x

theorem exec_saves (hd : xs.Pairwise fun x y => x.1 ≠ y.1) (hr : ∀ x ∈ xs, ∃ n, s.regs x.2 = some n) :
    ∃ s', execAll (xs.map fun (i, r) => .store r (.frame (Layout.offset i))) s = some s' ∧
      s.Within s' ∧ s'.data = s.data ∧
      (∀ i r n, (i, r) ∈ xs → s.regs r = some n → s'.stack.word? (s.fp + Layout.offset i) = some n) ∧
      ∀ i n, (∀ x ∈ xs, x.1 ≠ i) → s.stack.word? (s.fp + Layout.offset i) = some n →
        s'.stack.word? (s.fp + Layout.offset i) = some n := by
  induction xs generalizing s with
  | nil => exact ⟨s, rfl, ⟨rfl, rfl, rfl, fun _ _ => rfl⟩, rfl, by simp, fun _ _ _ h => h⟩
  | cons x xs ih =>
    obtain ⟨i, r⟩ := x
    obtain ⟨hne, hd⟩ := List.pairwise_cons.1 hd
    obtain ⟨n, hn⟩ := hr (i, r) List.mem_cons_self
    obtain ⟨s', hexec, hwithin, hdata, hsaved, hkept⟩ := ih
      (s := { s with stack := s.stack.write (s.fp + Layout.offset i) (.word n) }) hd
      fun y hy => hr y (List.mem_cons_of_mem _ hy)
    refine ⟨s', ?_, ⟨hwithin.fp, hwithin.sp, hwithin.output, fun a ha => ?_⟩, hdata,
      fun j q k hmem hk => ?_, fun j k hj hk => ?_⟩
    · simp only [List.map_cons, execAll, Ins.exec, hn, Option.bind_some, Processor.write]
      exact hexec
    · rw [hwithin.stack a ha]
      apply if_neg
      rw [Datum.size, Layout.offset]
      omega
    · rcases List.mem_cons.1 hmem with he | hmem
      · obtain ⟨rfl, rfl⟩ := Prod.mk.inj he
        obtain rfl := Option.some.inj (hn.symm.trans hk)
        exact hkept j n (fun y hy => (hne y hy).symm) (Stack.word?_write_self _ _ n)
      · exact hsaved j q k hmem hk
    · refine hkept j k (fun y hy => hj y (List.mem_cons_of_mem _ hy)) ?_
      have hij : i ≠ j := hj (i, r) List.mem_cons_self
      apply Stack.word?_write_of_disjoint hk
      simp only [Layout.offset]
      omega

theorem exec_frame (s : Processor) : ∃ s', execAll [.pushFrame, .setFrame] s = some s' ∧
    s'.regs = s.regs ∧ s'.fp = s.sp - 8 ∧ s'.sp = s.sp - 8 ∧ s'.data = s.data ∧ s'.output = s.output ∧
      s'.stack.read (s.sp - 8) = some (.frame s.fp) ∧ ∀ a, s.sp ≤ a → s'.stack a = s.stack a :=
  ⟨_, rfl, rfl, rfl, rfl, rfl, rfl, s.read_push (.frame s.fp), fun _ ha => Processor.stack_push ha⟩

theorem mem_zip_range {n i : Nat} {rs : List Reg} {r : Reg} :
    (i, r) ∈ (List.range n).zip rs ↔ i < n ∧ rs[i]? = some r := by
  simp only [List.mem_iff_getElem?, List.getElem?_zip_eq_some]
  constructor
  · rintro ⟨k, hk, hr⟩
    obtain ⟨hlt, hki⟩ := List.getElem?_eq_some_iff.1 hk
    rw [List.getElem_range] at hki
    rw [List.length_range] at hlt
    exact ⟨hki ▸ hlt, hki ▸ hr⟩
  · rintro ⟨hlt, hr⟩
    exact ⟨i, List.getElem?_range hlt, hr⟩

/-- The entry code of a function makes its frame, and its parameters are in it. -/
theorem exec_prologue (m : Module) (id : FuncId) (f : Function)
    (hregs : ∀ i < (Layout.ofFunction f).params, ∃ n, s.found i = some n) :
    ∃ s', execAll (Context.ofFunction m id f).prologue s = some s' ∧
      s'.fp = s.sp - 8 ∧ s'.sp = s'.fp - (Layout.ofFunction f).size ∧ s'.data = s.data ∧
      s'.output = s.output ∧ s'.stack.read s'.fp = some (.frame s.fp) ∧
      (∀ a, s.sp ≤ a → s'.stack a = s.stack a) ∧
      ∀ i n, i < f.paramCount → s.found i = some n →
        s'.stack.word? (s'.fp + (Layout.ofFunction f).paramOffset i) = some n := by
  have hparams := Layout.params_ofFunction f
  have hlayout : (Context.ofFunction m id f).layout = .ofFunction f := rfl
  generalize Layout.ofFunction f = l at *
  have hxs : (((List.range l.params).zip argRegs).map Prod.fst).Nodup := by
    rw [List.map_fst_zip (by simp [hparams])]
    exact List.nodup_range
  obtain ⟨s₁, hexec₁, hregs₁, hfp₁, hsp₁, hdata₁, hout₁, hread₁, hstack₁⟩ := exec_frame s
  obtain ⟨s₂, hexec₂, hregs₂, hstack₂, hfp₂, hsp₂, hdata₂, hout₂⟩ := exec_lower s₁ l.size
  obtain ⟨s', hexec', hwithin, hdata', hsaved, -⟩ := exec_saves (s := s₂) (List.pairwise_map.1 hxs)
    (by
      intro x hx
      obtain ⟨hi, hr⟩ := mem_zip_range.1 hx
      obtain ⟨n, hn⟩ := hregs x.1 hi
      rw [Processor.found, hr] at hn
      exact ⟨n, by rw [hregs₂, hregs₁]; exact hn⟩)
  have hfp : s'.fp = s.sp - 8 := by rw [hwithin.fp, hfp₂, hfp₁]
  have hold (a : Int) (ha : s.sp ≤ a) : s'.stack a = s.stack a := by
    rw [hwithin.stack a (by omega), hstack₂, hstack₁ a ha]
  refine ⟨s', ?_, hfp, ?_, ?_, ?_, ?_, hold, fun i n hi hn => ?_⟩
  · rw [Context.prologue, hlayout, execAll_append, execAll_append, hexec₁, Option.bind_some, hexec₂]
    exact hexec'
  · rw [hwithin.sp, hsp₂, hsp₁, hfp]
  · rw [hdata', hdata₂, hdata₁]
  · rw [hwithin.output, hout₂, hout₁]
  · rw [← hstack₂] at hread₁
    rw [hfp]
    exact Stack.read_congr hread₁ fun a ha _ => hwithin.stack a (by omega)
  · rw [Layout.paramOffset]
    split
    · next hlt =>
      have hr : argRegs[i]? = some argRegs[i] := List.getElem?_eq_getElem (by omega)
      rw [Processor.found, hr] at hn
      rw [hwithin.fp]
      refine hsaved i _ n (mem_zip_range.2 ⟨hlt, hr⟩) ?_
      rw [hregs₂, hregs₁]
      exact hn
    · next hge =>
      rw [Processor.found, List.getElem?_eq_none (by omega)] at hn
      have haddr : s'.fp + (16 + 8 * (i - argRegs.length) : Nat) =
          s.sp + (8 + 8 * (i - argRegs.length) : Nat) := by omega
      rw [haddr]
      exact Stack.word?_congr hn fun a ha => hold a (by omega)

end Entry
end IntLang.Assembly
