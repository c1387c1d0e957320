import IntLang.Console.LineReader
import IntLang.Proofs.Encoding

/-! What a line reader hands over, whatever is asked of it. The account is kept in one equation: what
has been delivered, followed by what is still owed, is what the input comes to, each line that is text
with all its bytes and each other line with one failure. Every request moves something from the debt to
the deliveries, in order, or nothing. -/
namespace IntLang.Console
open IntLang.Text IntLang.Text.Utf8

inductive Request where
  | read (n : Nat)
  | fill
  | consume (n : Nat)
  deriving DecidableEq, Repr

/-- What a request comes to: bytes are handed over, or only shown, or a line cannot be read. -/
inductive Reply where
  | handed (bs : List UInt8)
  | shown (bs : List UInt8)
  | failed (e : ReadError)
  deriving DecidableEq, Repr

inductive Delivery where
  | byte (b : UInt8)
  | failure
  deriving DecidableEq, Repr

namespace Delivery

def ofLine (l : List UInt8) : List Delivery :=
  if IsText l then l.map byte else [failure]

def ofLines (ls : List (List UInt8)) : List Delivery :=
  ls.flatMap ofLine

def byte? : Delivery → Option UInt8
  | byte b => some b
  | failure => none

end Delivery

namespace Reply

def deliveries : Reply → List Delivery
  | handed bs => bs.map .byte
  | shown _ => []
  | failed _ => [.failure]

def bytes : Reply → List UInt8
  | handed bs => bs
  | shown _ | failed _ => []

/-- Bytes were asked for, and there is none. -/
def Nothing : Request → Reply → Prop
  | .fill, shown bs => bs = []
  | .read n, handed bs => 0 < n ∧ bs = []
  | _, _ => False

end Reply

namespace LineReader

/-- Answers a request. What is consumed is handed over, whether it has been looked at before or not. -/
def answer (r : LineReader) : Request → Reply × LineReader
  | .read n =>
    match r.read n with
    | (.ok bs, r') => (.handed bs, r')
    | (.error e, r') => (.failed e, r')
  | .fill =>
    match r.fill with
    | (.ok bs, r') => (.shown bs, r')
    | (.error e, r') => (.failed e, r')
  | .consume n => (.handed (r.buffer.take n), r.consume n)

/-- The answers to requests that are made one after the other, and the reader after them. -/
def answers (r : LineReader) : List Request → List Reply × LineReader
  | [] => ([], r)
  | q :: qs =>
    let (reply, r') := r.answer q
    let (replies, r'') := r'.answers qs
    (reply :: replies, r'')

def owed (r : LineReader) : List Delivery :=
  r.buffer.map .byte ++ Delivery.ofLines r.lines

theorem buffer_consume (r : LineReader) (n : Nat) : (r.consume n).buffer = r.buffer.drop n := by
  rw [buffer, buffer, List.drop_drop]
  simp only [consume]
  rw [List.drop_eq_drop_iff]
  omega

theorem buffer_eq_nil_iff {r : LineReader} : r.buffer = [] ↔ r.line.length ≤ r.pos :=
  List.drop_eq_nil_iff

/-- The reader `r'` owes what `r` owes, and has the first of it at hand if that is a byte. -/
structure Ready (r r' : LineReader) : Prop where
  owed : r'.owed = r.owed
  lines : r'.lines <:+ r.lines
  nothing : [] ∉ r.lines → r'.buffer = [] → r.owed = []

structure Stuck (r : LineReader) (l : List UInt8) (ls : List (List UInt8)) : Prop where
  buffer : r.buffer = []
  lines : r.lines = l :: ls
  broken : ¬ IsText l

/-- How asking for the bytes at hand can turn out. -/
inductive Filled (r : LineReader) : Except ReadError (List UInt8) × LineReader → Prop where
  | ready {r' : LineReader} (h : Ready r r') : Filled r (.ok r'.buffer, r')
  | stuck {l : List UInt8} {ls : List (List UInt8)} (h : Stuck r l ls) :
      Filled r (.error .invalidUtf8, { lines := ls })

theorem filled (r : LineReader) : Filled r r.fill := by
  unfold fill
  split
  · next h =>
    have hbuffer := buffer_eq_nil_iff.2 h
    split
    · next hlines =>
      have howed : r.owed = [] := by rw [owed, hbuffer, hlines]; rfl
      have hready : Ready r { lines := [] } := ⟨howed.symm, List.nil_suffix, fun _ _ => howed⟩
      exact .ready hready
    · next l ls hlines =>
      by_cases hl : IsText l
      · have howed : r.owed = l.map .byte ++ Delivery.ofLines ls := by
          rw [owed, hbuffer, hlines, Delivery.ofLines, List.flatMap_cons, Delivery.ofLine, if_pos hl]
          rfl
        obtain ⟨s, hs⟩ := hl
        rw [decodeLine_text hs]
        have hready : Ready r { lines := ls, line := l } := by
          refine ⟨howed.symm, hlines ▸ List.suffix_cons l ls, ?_⟩
          rintro hne rfl
          exact absurd (hlines ▸ List.mem_cons_self) hne
        exact .ready hready
      · have hdecode : decodeLine l = .error .invalidUtf8 := by
          rw [isText_iff, Option.not_isSome_iff_eq_none] at hl
          rw [decodeLine, hl]
        rw [hdecode]
        exact .stuck ⟨hbuffer, hlines, hl⟩
  · next h => exact .ready ⟨rfl, List.suffix_rfl, fun _ hnil => absurd (buffer_eq_nil_iff.1 hnil) h⟩

/-- Consuming stops at the end of what is at hand. -/
theorem consume_min (r : LineReader) (n : Nat) : r.consume (min r.buffer.length n) = r.consume n := by
  have hlength : r.buffer.length = r.line.length - r.pos := List.length_drop
  simp only [consume, mk.injEq, true_and]
  omega

/-- How a request can turn out. -/
inductive Answered (r : LineReader) : Request → Reply → LineReader → Prop where
  | consume (n : Nat) : Answered r (.consume n) (.handed (r.buffer.take n)) (r.consume n)
  | fill {r' : LineReader} (h : Ready r r') : Answered r .fill (.shown r'.buffer) r'
  | read {r' : LineReader} (n : Nat) (h : Ready r r') :
      Answered r (.read n) (.handed (r'.buffer.take n)) (r'.consume n)
  | failed (q : Request) {l : List UInt8} {ls : List (List UInt8)} (h : Stuck r l ls) :
      Answered r q (.failed .invalidUtf8) { lines := ls }

theorem answered (r : LineReader) (q : Request) : Answered r q (r.answer q).1 (r.answer q).2 := by
  have hfilled := r.filled
  generalize hx : r.fill = x at hfilled
  cases q with
  | consume n => exact .consume n
  | fill =>
    simp only [answer, hx]
    cases hfilled with
    | ready h => exact .fill h
    | stuck h => exact .failed .fill h
  | read n =>
    simp only [answer, read, hx]
    cases hfilled with
    | @ready r' h =>
      have htake : r'.buffer.take (min r'.buffer.length n) = r'.buffer.take n := by
        rw [Nat.min_comm, List.take_eq_take_iff, Nat.min_assoc, Nat.min_self]
      simp only [consume_min, htake]
      exact .read n h
    | stuck h => exact .failed (.read n) h

theorem owed_consume (r : LineReader) (n : Nat) :
    (r.buffer.take n).map .byte ++ (r.consume n).owed = r.owed := by
  rw [owed, buffer_consume, ← List.append_assoc, ← List.map_append, List.take_append_drop]
  rfl

theorem Stuck.owed {r : LineReader} {l : List UInt8} {ls : List (List UInt8)} (h : Stuck r l ls) :
    r.owed = .failure :: Delivery.ofLines ls := by
  rw [LineReader.owed, h.buffer, h.lines, Delivery.ofLines, List.flatMap_cons, Delivery.ofLine,
    if_neg h.broken]
  rfl

section Answer
variable {r r' : LineReader} {q : Request} {reply : Reply}

/-- A reply delivers the first of what is owed, and the rest stays owed. -/
theorem Answered.deliveries (h : Answered r q reply r') :
    reply.deliveries ++ r'.owed = r.owed ∧ r'.lines <:+ r.lines := by
  cases h with
  | consume n => exact ⟨owed_consume r n, List.suffix_rfl⟩
  | fill h => exact ⟨h.owed, h.lines⟩
  | read n h => exact ⟨(owed_consume _ n).trans h.owed, h.lines⟩
  | failed q h => exact ⟨h.owed.symm, h.lines ▸ List.suffix_cons _ _⟩

/-- There are bytes for whoever asks as long as anything is owed. -/
theorem Answered.owed_eq_nil (h : Answered r q reply r') (hlines : [] ∉ r.lines)
    (hreply : Reply.Nothing q reply) : r.owed = [] := by
  cases h with
  | consume n => exact hreply.elim
  | fill h => exact h.nothing hlines hreply
  | read n h =>
    obtain ⟨hn, hnone⟩ := hreply
    exact h.nothing hlines ((List.take_eq_nil_iff.1 hnone).resolve_left (Nat.ne_of_gt hn))
  | failed q h => cases q <;> exact hreply.elim

end Answer

/-- Whatever has been asked, what has been delivered and what is owed make up what was owed at first. -/
theorem deliveries_answers (r : LineReader) (qs : List Request) :
    (r.answers qs).1.flatMap Reply.deliveries ++ (r.answers qs).2.owed = r.owed ∧
      (r.answers qs).2.lines <:+ r.lines := by
  induction qs generalizing r with
  | nil => exact ⟨rfl, List.suffix_rfl⟩
  | cons q qs ih =>
    obtain ⟨hstep, hsuffix⟩ := (r.answered q).deliveries
    obtain ⟨hrun, hsuffix'⟩ := ih (r.answer q).2
    simp only [answers, List.flatMap_cons, List.append_assoc]
    exact ⟨by rw [hrun, hstep], hsuffix'.trans hsuffix⟩

end LineReader

theorem filterMap_deliveries (replies : List Reply) :
    (replies.flatMap Reply.deliveries).filterMap Delivery.byte? = replies.flatMap Reply.bytes := by
  induction replies with
  | nil => rfl
  | cons reply replies ih =>
    rw [List.flatMap_cons, List.flatMap_cons, List.filterMap_append, ih]
    cases reply <;> simp [Reply.deliveries, Reply.bytes, Delivery.byte?, Function.comp_def]

theorem filterMap_ofLines (ls : List (List UInt8)) :
    (Delivery.ofLines ls).filterMap Delivery.byte? = (ls.filter (IsText ·)).flatten := by
  induction ls with
  | nil => rfl
  | cons l ls ih =>
    rw [Delivery.ofLines, List.flatMap_cons, List.filterMap_append, ← Delivery.ofLines, ih, Delivery.ofLine]
    by_cases hl : IsText l <;> simp [hl, Delivery.byte?, Function.comp_def]

theorem ofLines_append (ls ms : List (List UInt8)) :
    Delivery.ofLines (ls ++ ms) = Delivery.ofLines ls ++ Delivery.ofLines ms :=
  List.flatMap_append

/-- Of the bytes `bs` a reader has delivered `told`, and `r` is that reader. -/
structure Reached (bs : List UInt8) (told : List Delivery) (r : LineReader) : Prop where
  account : told ++ r.owed = Delivery.ofLines (splitLines bs)
  lines : r.lines <:+ splitLines bs

namespace Reached
variable {bs : List UInt8} {told : List Delivery} {r : LineReader}

/-- Where the next line is not text, all lines before it have been delivered, and those after it are the input
of a reader that goes on. -/
theorem stuck {l : List UInt8} {ls : List (List UInt8)} (h : Reached bs told r)
    (hstuck : r.Stuck l ls) : ∃ passed, splitLines bs = passed ++ l :: ls ∧
      told = Delivery.ofLines passed ∧ { lines := ls } = LineReader.ofBytes ls.flatten := by
  obtain ⟨passed, hpassed⟩ := h.lines
  rw [hstuck.lines] at hpassed
  refine ⟨passed, hpassed.symm, ?_, ?_⟩
  · have haccount := h.account
    rw [← hpassed, ofLines_append, LineReader.owed, hstuck.buffer, hstuck.lines] at haccount
    exact List.append_cancel_right haccount
  · have hlines := lines_splitLines bs
    rw [← hpassed] at hlines
    rw [LineReader.ofBytes, hlines.right.tail.splitLines_flatten]

theorem nothing {q : Request} {reply : Reply} {r' : LineReader} (h : Reached bs told r)
    (hanswered : r.Answered q reply r') (hreply : Reply.Nothing q reply) :
    told = Delivery.ofLines (splitLines bs) := by
  have hlines : [] ∉ r.lines := fun hmem => ne_nil_of_mem_splitLines (h.lines.subset hmem) rfl
  rw [← h.account, hanswered.owed_eq_nil hlines hreply, List.append_nil]

end Reached

/-- A reader neither loses nor repeats a byte, whatever is asked of it in whatever order. What it has
delivered and what it has at hand is the beginning of what the input comes to; a request fails only when
all lines before one that is not text have been delivered, and the reader goes on after that line; and
there are bytes for whoever asks until everything has been delivered. -/
theorem answers_account (bs : List UInt8) (qs : List Request) (q : Request) :
    ∃ replies r reply r', (LineReader.ofBytes bs).answers qs = (replies, r) ∧ r.answer q = (reply, r') ∧
      replies.flatMap Reply.bytes <+: ((splitLines bs).filter (IsText ·)).flatten ∧
      replies.flatMap Reply.deliveries ++ r.buffer.map .byte <+: Delivery.ofLines (splitLines bs) ∧
      (∀ shown, reply = .shown shown → r'.buffer = shown) ∧
      (∀ e, reply = .failed e → ∃ passed l rest, splitLines bs = passed ++ l :: rest ∧ ¬ IsText l ∧
        replies.flatMap Reply.deliveries = Delivery.ofLines passed ∧ r' = LineReader.ofBytes rest.flatten) ∧
      (Reply.Nothing q reply → replies.flatMap Reply.deliveries = Delivery.ofLines (splitLines bs)) := by
  obtain ⟨haccount, hlines⟩ := (LineReader.ofBytes bs).deliveries_answers qs
  rcases hanswers : (LineReader.ofBytes bs).answers qs with ⟨replies, r⟩
  rw [hanswers] at haccount hlines
  have hreached : Reached bs (replies.flatMap Reply.deliveries) r := ⟨haccount, hlines⟩
  rcases hanswer : r.answer q with ⟨reply, r'⟩
  have hanswered : r.Answered q reply r' := by simpa only [hanswer] using r.answered q
  refine ⟨replies, r, reply, r', rfl, hanswer, ?_, ?_, ?_, ?_, hreached.nothing hanswered⟩
  · have hprefix : replies.flatMap Reply.deliveries <+: Delivery.ofLines (splitLines bs) := ⟨_, haccount⟩
    rw [← filterMap_deliveries, ← filterMap_ofLines]
    exact hprefix.filterMap _
  · refine ⟨Delivery.ofLines r.lines, ?_⟩
    rw [List.append_assoc]
    exact haccount
  · rintro shown rfl
    cases hanswered
    rfl
  · rintro e rfl
    cases hanswered with
    | failed _ hstuck =>
      obtain ⟨passed, hpassed, htold, hrest⟩ := hreached.stuck hstuck
      exact ⟨passed, _, _, hpassed, hstuck.broken, htold, hrest⟩

/-- A line in two pieces, a line that is no text, and a character whose bytes are handed over one by one. -/
example :
    ((LineReader.ofBytes [97, 10, 255, 10, 195, 169]).answers
      [.read 1, .fill, .consume 1, .read 4, .read 1, .read 4, .fill]).1 =
      [.handed [97], .shown [10], .handed [10], .failed .invalidUtf8, .handed [195], .handed [169],
        .shown []] := by
  decide

end IntLang.Console
