import IntLang.Text.Line
import Mathlib.Data.List.Basic

/-! Decoding of UTF-8 is the inverse of encoding. The decoder accepts a sequence of bytes exactly if it is
the encoding of a text, and gives that text; so lines of an encoded text can be decoded on their own. -/
namespace IntLang.Text.Utf8

/-- The bytes that are one character, and its number. The second byte has fewer values after some first
bytes, so that no character has two forms and no surrogate has one. -/
inductive Sequence : List UInt8 → Nat → Prop where
  | one (a : UInt8) (ha : a.toNat < 0x80) : Sequence [a] a.toNat
  | two (a b : UInt8) (ha : 0xc2 ≤ a.toNat ∧ a.toNat < 0xe0) (hb : 0x80 ≤ b.toNat ∧ b.toNat ≤ 0xbf) :
      Sequence [a, b] (a.toNat % 32 * 64 + b.toNat % 64)
  | three (a b c : UInt8) (ha : 0xe0 ≤ a.toNat ∧ a.toNat < 0xf0)
      (hb : 0x80 ≤ b.toNat ∧ b.toNat ≤ 0xbf) (hlow : a.toNat = 0xe0 → 0xa0 ≤ b.toNat)
      (hhigh : a.toNat = 0xed → b.toNat ≤ 0x9f) (hc : 0x80 ≤ c.toNat ∧ c.toNat ≤ 0xbf) :
      Sequence [a, b, c] ((a.toNat % 16 * 64 + b.toNat % 64) * 64 + c.toNat % 64)
  | four (a b c d : UInt8) (ha : 0xf0 ≤ a.toNat ∧ a.toNat ≤ 0xf4)
      (hb : 0x80 ≤ b.toNat ∧ b.toNat ≤ 0xbf) (hlow : a.toNat = 0xf0 → 0x90 ≤ b.toNat)
      (hhigh : a.toNat = 0xf4 → b.toNat ≤ 0x8f) (hc : 0x80 ≤ c.toNat ∧ c.toNat ≤ 0xbf)
      (hd : 0x80 ≤ d.toNat ∧ d.toNat ≤ 0xbf) :
      Sequence [a, b, c, d]
        (((a.toNat % 8 * 64 + b.toNat % 64) * 64 + c.toNat % 64) * 64 + d.toNat % 64)

variable {s t : State} {w bs : List UInt8} {cs : List Char} {v need value : Nat} {a b lo hi : UInt8}

theorem ofNat_eq_of_eq_toNat (a : UInt8) {n : Nat} (h : n = a.toNat) : UInt8.ofNat n = a := by
  rw [h, UInt8.ofNat_toNat]

theorem val_ofNat (h : v.isValidChar) : (Char.ofNat v).val.toNat = v := by
  rw [Char.ofNat, dif_pos h]
  rfl

theorem Sequence.isValidChar (h : Sequence w v) : v.isValidChar := by
  cases h <;> unfold Nat.isValidChar <;> omega

/-- The character with that number is written with these bytes. -/
theorem Sequence.encode_eq (h : Sequence w v) : String.utf8EncodeChar (Char.ofNat v) = w := by
  have hv := val_ofNat h.isValidChar
  simp only [String.utf8EncodeChar, hv]
  clear hv
  cases h with
  | one a ha => rw [if_pos (by omega), ofNat_eq_of_eq_toNat a rfl]
  | two a b ha hb =>
    rw [if_neg (by omega), if_pos (by omega), ofNat_eq_of_eq_toNat a (by omega),
      ofNat_eq_of_eq_toNat b (by omega)]
  | three a b c ha hb hlow hhigh hc =>
    rw [if_neg (by omega), if_neg (by omega), if_pos (by omega), ofNat_eq_of_eq_toNat a (by omega),
      ofNat_eq_of_eq_toNat b (by omega), ofNat_eq_of_eq_toNat c (by omega)]
  | four a b c d ha hb hlow hhigh hc hd =>
    rw [if_neg (by omega), if_neg (by omega), if_neg (by omega), ofNat_eq_of_eq_toNat a (by omega),
      ofNat_eq_of_eq_toNat b (by omega), ofNat_eq_of_eq_toNat c (by omega),
      ofNat_eq_of_eq_toNat d (by omega)]

/-- The bytes that a character is written with are one of these sequences. -/
theorem exists_sequence (c : Char) : ∃ v, Sequence (String.utf8EncodeChar c) v ∧ Char.ofNat v = c := by
  have hvalid : c.val.toNat.isValidChar := c.valid
  have hc : Char.ofNat c.val.toNat = c := Char.ofNat_toNat c
  simp only [String.utf8EncodeChar]
  generalize c.val.toNat = n at hvalid hc ⊢
  unfold Nat.isValidChar at hvalid
  have hbyte : ∀ k < 256, (UInt8.ofNat k).toNat = k := fun k hk => UInt8.toNat_ofNat_of_lt' hk
  split
  · have ha := hbyte n (by omega)
    refine ⟨_, .one _ (by omega), ?_⟩
    rw [ha, hc]
  split
  · have ha := hbyte (n / 64 % 32 + 192) (by omega)
    have hb := hbyte (n % 64 + 128) (by omega)
    refine ⟨_, .two _ _ (by omega) (by omega), ?_⟩
    rw [ha, hb, ← hc]
    congr 1
    omega
  split
  · have ha := hbyte (n / 4096 % 16 + 224) (by omega)
    have hb := hbyte (n / 64 % 64 + 128) (by omega)
    have hd := hbyte (n % 64 + 128) (by omega)
    refine ⟨_, .three _ _ _ (by omega) (by omega) (by omega) (by omega) (by omega), ?_⟩
    rw [ha, hb, hd, ← hc]
    congr 1
    omega
  · have ha := hbyte (n / 262144 % 8 + 240) (by omega)
    have hb := hbyte (n / 4096 % 64 + 128) (by omega)
    have hd := hbyte (n / 64 % 64 + 128) (by omega)
    have he := hbyte (n % 64 + 128) (by omega)
    refine ⟨_, .four _ _ _ _ (by omega) (by omega) (by omega) (by omega) (by omega) (by omega), ?_⟩
    rw [ha, hb, hd, he, ← hc]
    congr 1
    omega

/-- What the decoder makes of the bytes from a state on, if all of it is characters. -/
def decodeFrom (s : State) (bs : List UInt8) : Option (List Char) :=
  (piecesFrom s bs).mapM id

theorem decodeFrom_inside_nil (need : Nat) (lo hi : UInt8) (value : Nat) :
    decodeFrom (.inside need lo hi value) [] = none :=
  rfl

theorem decodeFrom_cons_of_feed {c : Char}
    (h : feed s b = ([some c], t)) : decodeFrom s (b :: bs) = (decodeFrom t bs).map (c :: ·) := by
  have hpieces : piecesFrom s (b :: bs) = some c :: piecesFrom t bs := by
    rw [piecesFrom, h]
    rfl
  rw [decodeFrom, hpieces, List.mapM_cons]
  change (some c >>= fun x => decodeFrom t bs >>= fun xs => pure (x :: xs)) = _
  cases decodeFrom t bs <;> rfl

theorem decodeFrom_cons_of_feed_nil (h : feed s b = ([], t)) : decodeFrom s (b :: bs) = decodeFrom t bs := by
  simp [decodeFrom, piecesFrom, h]

theorem decodeFrom_cons_of_feed_none {ps : List Piece}
    (h : feed s b = (none :: ps, t)) : decodeFrom s (b :: bs) = none := by
  simp [decodeFrom, piecesFrom, h]

theorem decodeFrom_inside_of_not (bs : List UInt8) (h : ¬ (lo.toNat ≤ b.toNat ∧ b.toNat ≤ hi.toNat)) :
    decodeFrom (.inside need lo hi value) (b :: bs) = none := by
  have hfeed : ¬ (lo ≤ b && b ≤ hi) = true := by simpa [UInt8.le_iff_toNat_le] using h
  have hstart : feed (.inside need lo hi value) b = (none :: (start b).1, (start b).2) := by
    simp only [feed, if_neg hfeed]
  exact decodeFrom_cons_of_feed_none hstart

theorem decodeFrom_inside_zero (bs : List UInt8) (h : lo.toNat ≤ b.toNat ∧ b.toNat ≤ hi.toNat) :
    decodeFrom (.inside 0 lo hi value) (b :: bs) =
      (decodeFrom .between bs).map (Char.ofNat (value * 64 + b.toNat % 64) :: ·) := by
  have hfeed : (lo ≤ b && b ≤ hi) = true := by simpa [UInt8.le_iff_toNat_le] using h
  exact decodeFrom_cons_of_feed (by simp only [feed, if_pos hfeed])

theorem decodeFrom_inside_succ (bs : List UInt8) (h : lo.toNat ≤ b.toNat ∧ b.toNat ≤ hi.toNat) :
    decodeFrom (.inside (need + 1) lo hi value) (b :: bs) =
      decodeFrom (.inside need 0x80 0xbf (value * 64 + b.toNat % 64)) bs := by
  have hfeed : (lo ≤ b && b ≤ hi) = true := by simpa [UInt8.le_iff_toNat_le] using h
  exact decodeFrom_cons_of_feed_nil (by simp only [feed, if_pos hfeed])

/-- Inside a character the next byte is there and lies between the bounds. -/
theorem exists_of_decodeFrom_inside (h : decodeFrom (.inside need lo hi value) bs = some cs) :
    ∃ b rest, bs = b :: rest ∧ lo.toNat ≤ b.toNat ∧ b.toNat ≤ hi.toNat := by
  cases bs with
  | nil =>
    rw [decodeFrom_inside_nil] at h
    cases h
  | cons b rest =>
    by_cases hb : lo.toNat ≤ b.toNat ∧ b.toNat ≤ hi.toNat
    · exact ⟨b, rest, rfl, hb⟩
    · rw [decodeFrom_inside_of_not rest hb] at h
      cases h

theorem feed_one (ha : a.toNat < 0x80) : feed .between a = ([some (Char.ofNat a.toNat)], .between) := by
  simp only [feed, start]
  rw [if_pos ha]

theorem feed_two (ha : 0xc2 ≤ a.toNat ∧ a.toNat < 0xe0) :
    feed .between a = ([], .inside 0 0x80 0xbf (a.toNat % 32)) := by
  simp only [feed, start]
  rw [if_neg (by omega), if_neg (by omega), if_pos (by omega)]

/-- After the first of three bytes the bounds on the second are those of the sequence. -/
theorem feed_three (ha : 0xe0 ≤ a.toNat ∧ a.toNat < 0xf0) :
    ∃ lo hi : UInt8, feed .between a = ([], .inside 1 lo hi (a.toNat % 16)) ∧
      ∀ n : Nat, (lo.toNat ≤ n ∧ n ≤ hi.toNat) ↔
        (0x80 ≤ n ∧ n ≤ 0xbf) ∧ (a.toNat = 0xe0 → 0xa0 ≤ n) ∧ (a.toNat = 0xed → n ≤ 0x9f) := by
  simp only [feed, start]
  rw [if_neg (by omega), if_neg (by omega), if_neg (by omega)]
  split
  · exact ⟨0xa0, 0xbf, rfl, by simp; omega⟩
  split
  · exact ⟨0x80, 0x9f, rfl, by simp; omega⟩
  · rw [if_pos (by omega)]
    exact ⟨0x80, 0xbf, rfl, by simp; omega⟩

theorem feed_four (ha : 0xf0 ≤ a.toNat ∧ a.toNat ≤ 0xf4) :
    ∃ lo hi : UInt8, feed .between a = ([], .inside 2 lo hi (a.toNat % 8)) ∧
      ∀ n : Nat, (lo.toNat ≤ n ∧ n ≤ hi.toNat) ↔
        (0x80 ≤ n ∧ n ≤ 0xbf) ∧ (a.toNat = 0xf0 → 0x90 ≤ n) ∧ (a.toNat = 0xf4 → n ≤ 0x8f) := by
  simp only [feed, start]
  rw [if_neg (by omega), if_neg (by omega), if_neg (by omega), if_neg (by omega), if_neg (by omega),
    if_neg (by omega)]
  split
  · exact ⟨0x90, 0xbf, rfl, by simp; omega⟩
  split
  · exact ⟨0x80, 0xbf, rfl, by simp; omega⟩
  · rw [if_pos (by omega)]
    exact ⟨0x80, 0x8f, rfl, by simp; omega⟩

theorem feed_other (ha : 0x80 ≤ a.toNat ∧ a.toNat < 0xc2 ∨ 0xf4 < a.toNat) :
    feed .between a = ([none], .between) := by
  simp only [feed, start]
  rw [if_neg (by omega)]
  split
  · rfl
  · repeat rw [if_neg (by omega)]

theorem Sequence.decodeFrom_append (h : Sequence w v) (bs : List UInt8) :
    decodeFrom .between (w ++ bs) = (decodeFrom .between bs).map (Char.ofNat v :: ·) := by
  cases h with
  | one a ha => exact decodeFrom_cons_of_feed (feed_one ha)
  | two a b ha hb =>
    calc decodeFrom .between (a :: b :: bs)
      _ = decodeFrom (.inside 0 0x80 0xbf (a.toNat % 32)) (b :: bs) :=
        decodeFrom_cons_of_feed_nil (feed_two ha)
      _ = _ := decodeFrom_inside_zero bs hb
  | three a b c ha hb hlow hhigh hc =>
    obtain ⟨lo, hi, hfeed, hbounds⟩ := feed_three ha
    calc decodeFrom .between (a :: b :: c :: bs)
      _ = decodeFrom (.inside 1 lo hi (a.toNat % 16)) (b :: c :: bs) :=
        decodeFrom_cons_of_feed_nil hfeed
      _ = decodeFrom (.inside 0 0x80 0xbf _) (c :: bs) :=
        decodeFrom_inside_succ _ ((hbounds _).2 ⟨hb, hlow, hhigh⟩)
      _ = _ := decodeFrom_inside_zero bs hc
  | four a b c d ha hb hlow hhigh hc hd =>
    obtain ⟨lo, hi, hfeed, hbounds⟩ := feed_four ha
    calc decodeFrom .between (a :: b :: c :: d :: bs)
      _ = decodeFrom (.inside 2 lo hi (a.toNat % 8)) (b :: c :: d :: bs) :=
        decodeFrom_cons_of_feed_nil hfeed
      _ = decodeFrom (.inside 1 0x80 0xbf _) (c :: d :: bs) :=
        decodeFrom_inside_succ _ ((hbounds _).2 ⟨hb, hlow, hhigh⟩)
      _ = decodeFrom (.inside 0 0x80 0xbf _) (d :: bs) := decodeFrom_inside_succ _ hc
      _ = _ := decodeFrom_inside_zero bs hd

/-- Bytes that decode start with a sequence. -/
theorem exists_sequence_of_decodeFrom (h : decodeFrom .between (a :: bs) = some cs) :
    ∃ w rest v, Sequence w v ∧ a :: bs = w ++ rest := by
  by_cases h1 : a.toNat < 0x80
  · exact ⟨[a], bs, _, .one a h1, rfl⟩
  by_cases h2 : 0xc2 ≤ a.toNat ∧ a.toNat < 0xe0
  · rw [decodeFrom_cons_of_feed_nil (feed_two h2)] at h
    obtain ⟨b, bs, rfl, hb⟩ := exists_of_decodeFrom_inside h
    exact ⟨[a, b], bs, _, .two a b h2 hb, rfl⟩
  by_cases h3 : 0xe0 ≤ a.toNat ∧ a.toNat < 0xf0
  · obtain ⟨lo, hi, hfeed, hbounds⟩ := feed_three h3
    rw [decodeFrom_cons_of_feed_nil hfeed] at h
    obtain ⟨b, bs, rfl, hb⟩ := exists_of_decodeFrom_inside h
    rw [decodeFrom_inside_succ _ hb] at h
    obtain ⟨c, bs, rfl, hc⟩ := exists_of_decodeFrom_inside h
    obtain ⟨hb, hlow, hhigh⟩ := (hbounds _).1 hb
    exact ⟨[a, b, c], bs, _, .three a b c h3 hb hlow hhigh hc, rfl⟩
  by_cases h4 : 0xf0 ≤ a.toNat ∧ a.toNat ≤ 0xf4
  · obtain ⟨lo, hi, hfeed, hbounds⟩ := feed_four h4
    rw [decodeFrom_cons_of_feed_nil hfeed] at h
    obtain ⟨b, bs, rfl, hb⟩ := exists_of_decodeFrom_inside h
    rw [decodeFrom_inside_succ _ hb] at h
    obtain ⟨c, bs, rfl, hc⟩ := exists_of_decodeFrom_inside h
    rw [decodeFrom_inside_succ _ hc] at h
    obtain ⟨d, bs, rfl, hd⟩ := exists_of_decodeFrom_inside h
    obtain ⟨hb, hlow, hhigh⟩ := (hbounds _).1 hb
    exact ⟨[a, b, c, d], bs, _, .four a b c d h4 hb hlow hhigh hc hd, rfl⟩
  · rw [decodeFrom_cons_of_feed_none (feed_other (by omega))] at h
    cases h

/-- No byte of a longer sequence is a newline. -/
theorem Sequence.eq_of_newline_mem (h : Sequence w v) (hmem : newline ∈ w) : w = [newline] ∧ v = 10 := by
  have hn : newline.toNat = 10 := rfl
  cases h with
  | one a ha =>
    rw [List.mem_singleton] at hmem
    rw [← hmem]
    exact ⟨rfl, hn⟩
  | two a b ha hb =>
    simp only [List.mem_cons, List.not_mem_nil, or_false] at hmem
    rcases hmem with rfl | rfl <;> omega
  | three a b c ha hb hlow hhigh hc =>
    simp only [List.mem_cons, List.not_mem_nil, or_false] at hmem
    rcases hmem with rfl | rfl | rfl <;> omega
  | four a b c d ha hb hlow hhigh hc hd =>
    simp only [List.mem_cons, List.not_mem_nil, or_false] at hmem
    rcases hmem with rfl | rfl | rfl | rfl <;> omega

theorem decode?_flatMap (cs : List Char) : decode? (cs.flatMap String.utf8EncodeChar) = some cs := by
  change decodeFrom .between _ = some cs
  induction cs with
  | nil => rfl
  | cons c cs ih =>
    obtain ⟨v, hseq, hc⟩ := exists_sequence c
    rw [List.flatMap_cons, hseq.decodeFrom_append, ih, hc]
    rfl

theorem eq_flatMap_of_decode? (h : decode? bs = some cs) : bs = cs.flatMap String.utf8EncodeChar := by
  change decodeFrom .between bs = some cs at h
  induction hn : bs.length using Nat.strongRecOn generalizing bs cs with
  | ind n ih =>
    cases bs with
    | nil =>
      cases h
      rfl
    | cons a bs =>
      obtain ⟨w, rest, v, hseq, heq⟩ := exists_sequence_of_decodeFrom h
      rw [heq, hseq.decodeFrom_append] at h
      obtain ⟨ds, hds, rfl⟩ := Option.map_eq_some_iff.1 h
      have hlen : rest.length < n := by
        have hw : 0 < w.length := by cases hseq <;> simp
        have := congrArg List.length heq
        simp only [List.length_append] at this
        omega
      rw [heq, List.flatMap_cons, hseq.encode_eq, ih _ hlen hds rfl]

/-- Bytes decode to a text exactly if they are its encoding. -/
theorem decode?_eq_some_iff : decode? bs = some cs ↔ bs = cs.flatMap String.utf8EncodeChar :=
  ⟨eq_flatMap_of_decode?, fun h => h ▸ decode?_flatMap cs⟩

theorem toList_loop (b : ByteArray) (i : Nat) (r : List UInt8) :
    ByteArray.toList.loop b i r = r.reverse ++ b.data.toList.drop i := by
  fun_induction ByteArray.toList.loop b i r with
  | case1 i r h ih =>
    have hi : i < b.data.toList.length := by simpa using h
    have hget : b.get! i = b.data.toList.get ⟨i, hi⟩ := by simp [ByteArray.get!, h]
    rw [ih, hget, List.reverse_cons, List.append_assoc, List.singleton_append, List.get_eq_getElem,
      List.getElem_cons_drop]
  | case2 i r h =>
    rw [List.drop_eq_nil_of_le (by simpa using Nat.le_of_not_lt h), List.append_nil]

theorem encode_eq_flatMap (s : String) : encode s = s.toList.flatMap String.utf8EncodeChar := by
  have hbytes : s.toUTF8 = (s.toList.flatMap String.utf8EncodeChar).toByteArray := by
    rw [String.toUTF8_eq_toByteArray]
    exact String.utf8Encode_toList.symm
  rw [encode, hbytes, ByteArray.toList, toList_loop, List.toList_data_toByteArray]
  rfl

theorem decode?_encode (s : String) : decode? (encode s) = some s.toList := by
  rw [encode_eq_flatMap, decode?_flatMap]

theorem encode_injective {s t : String} (h : encode s = encode t) : s = t := by
  have hdecode := decode?_encode s
  rw [h, decode?_encode] at hdecode
  exact String.toList_injective (Option.some.inj hdecode).symm

theorem encode_ofList (cs : List Char) : encode (String.ofList cs) = cs.flatMap String.utf8EncodeChar := by
  rw [encode_eq_flatMap, String.toList_ofList]

theorem encode_append (s t : String) : encode (s ++ t) = encode s ++ encode t := by
  rw [encode_eq_flatMap, encode_eq_flatMap, encode_eq_flatMap, String.toList_append,
    List.flatMap_append]

def IsText (bs : List UInt8) : Prop :=
  ∃ s : String, encode s = bs

theorem isText_iff : IsText bs ↔ (decode? bs).isSome := by
  rw [Option.isSome_iff_exists]
  constructor
  · rintro ⟨s, rfl⟩
    exact ⟨s.toList, decode?_encode s⟩
  · rintro ⟨cs, h⟩
    exact ⟨String.ofList cs, by rw [encode_ofList, decode?_eq_some_iff.1 h]⟩

instance (bs : List UInt8) : Decidable (IsText bs) :=
  decidable_of_iff _ isText_iff.symm

end Utf8

open Utf8

theorem decodeLine_text {l : List UInt8} {s : String} (h : encode s = l) : decodeLine l = .ok s.toList := by
  rw [decodeLine, ← h, decode?_encode]

/-- What cutting bytes after each newline can give: every line but the last ends in a newline. -/
inductive Lines : List (List UInt8) → Prop where
  | nil : Lines []
  | last {l : List UInt8} (hne : l ≠ []) (hl : newline ∉ l) : Lines [l]
  | cons (body : List UInt8) {ls : List (List UInt8)} (hbody : newline ∉ body) (hls : Lines ls) :
      Lines ((body ++ [newline]) :: ls)

variable {ls ms : List (List UInt8)}

theorem lines_splitLines (bs : List UInt8) : Lines (splitLines bs) := by
  induction bs with
  | nil => exact .nil
  | cons b bs ih =>
    rw [splitLines]
    split
    · next hb => exact hb ▸ .cons [] (by simp) ih
    · next hb =>
      have hb : newline ≠ b := fun h => hb h.symm
      split
      · exact .last (by simp) (by simpa using hb)
      · next l ls hs =>
        rw [hs] at ih
        cases ih with
        | last hne hl => exact .last (by simp) (by simp [hb, hl])
        | cons body hbody hls => exact .cons (b :: body) (by simp [hb, hbody]) hls

theorem splitLines_of_not_mem {l : List UInt8} (hne : l ≠ []) (hl : newline ∉ l) : splitLines l = [l] := by
  induction l with
  | nil => exact absurd rfl hne
  | cons b l ih =>
    simp only [List.mem_cons, not_or] at hl
    rw [splitLines, if_neg (fun h => hl.1 h.symm)]
    cases l with
    | nil => rfl
    | cons c l => rw [ih (by simp) hl.2]

theorem splitLines_append_newline {body : List UInt8} (hbody : newline ∉ body) (bs : List UInt8) :
    splitLines (body ++ [newline] ++ bs) = (body ++ [newline]) :: splitLines bs := by
  induction body with
  | nil => exact if_pos rfl
  | cons b body ih =>
    simp only [List.mem_cons, not_or] at hbody
    rw [List.cons_append, List.cons_append, splitLines, if_neg (fun h => hbody.1 h.symm), ih hbody.2]

/-- Lines are what they are cut into when joined. -/
theorem Lines.splitLines_flatten (h : Lines ls) : splitLines ls.flatten = ls := by
  induction h with
  | nil => rfl
  | last hne hl => simpa using splitLines_of_not_mem hne hl
  | cons body hbody _ ih => rw [List.flatten_cons, splitLines_append_newline hbody, ih]

theorem Lines.tail {l : List UInt8} (h : Lines (l :: ls)) : Lines ls := by
  cases h with
  | last => exact .nil
  | cons _ _ hls => exact hls

theorem Lines.right (h : Lines (ls ++ ms)) : Lines ms := by
  induction ls with
  | nil => exact h
  | cons l ls ih => exact ih h.tail

theorem Lines.filter (h : Lines ls) (keep : List UInt8 → Bool) : Lines (ls.filter keep) := by
  induction h with
  | nil => exact .nil
  | last hne hl =>
    rw [List.filter_cons]
    split
    · exact .last hne hl
    · exact .nil
  | cons body hbody _ ih =>
    rw [List.filter_cons]
    split
    · exact .cons body hbody ih
    · exact ih

theorem Lines.left (h : Lines (ls ++ ms)) : Lines ls := by
  induction ls with
  | nil => exact .nil
  | cons l ls ih =>
    have hls := ih h.tail
    generalize heq : l :: ls ++ ms = ns at h
    cases h with
    | nil => cases heq
    | last hne hl =>
      obtain ⟨rfl, hnil⟩ := List.cons.inj heq
      obtain ⟨rfl, -⟩ := List.append_eq_nil_iff.1 hnil
      exact .last hne hl
    | cons body hbody =>
      obtain ⟨rfl, -⟩ := List.cons.inj heq
      exact .cons body hbody hls

/-- A newline among the bytes of a text is a newline of the text. -/
theorem exists_of_flatMap_eq {cs : List Char} {a b : List UInt8}
    (h : cs.flatMap String.utf8EncodeChar = a ++ newline :: b) :
    ∃ ds es, cs = ds ++ '\n' :: es ∧ a = ds.flatMap String.utf8EncodeChar ∧
      b = es.flatMap String.utf8EncodeChar := by
  induction cs generalizing a with
  | nil => simp at h
  | cons c cs ih =>
    rcases List.append_eq_append_iff.1 h with ⟨w, rfl, hrest⟩ | ⟨w, hc, hrest⟩
    · obtain ⟨ds, es, rfl, rfl, rfl⟩ := ih hrest
      exact ⟨c :: ds, es, rfl, rfl, rfl⟩
    cases w with
    | nil =>
      obtain ⟨ds, es, rfl, hds, rfl⟩ := ih (a := []) hrest.symm
      exact ⟨c :: ds, es, rfl, by simp [← hds, hc], rfl⟩
    | cons x w =>
      obtain ⟨rfl, rfl⟩ := List.cons.inj hrest
      obtain ⟨v, hseq, rfl⟩ := exists_sequence c
      obtain ⟨hw, rfl⟩ := hseq.eq_of_newline_mem (hc ▸ by simp)
      rw [hw] at hc
      obtain ⟨rfl, hw⟩ : a = [] ∧ w = [] := by
        cases a with
        | nil => simpa using hc
        | cons y a => simp at hc
      exact ⟨[], cs, rfl, rfl, by rw [hw]; rfl⟩

theorem Lines.isText (h : Lines ls) (htext : IsText ls.flatten) : ∀ l ∈ ls, IsText l := by
  induction h with
  | nil => simp
  | last => simpa using htext
  | cons body _ _ ih =>
    obtain ⟨s, hs⟩ := htext
    rw [encode_eq_flatMap, List.flatten_cons, List.append_assoc] at hs
    obtain ⟨ds, es, -, hbody, hrest⟩ := exists_of_flatMap_eq hs
    rw [List.forall_mem_cons]
    constructor
    · refine ⟨String.ofList (ds ++ ['\n']), ?_⟩
      rw [encode_ofList, List.flatMap_append, hbody]
      rfl
    · exact ih ⟨String.ofList es, (encode_ofList es).trans hrest.symm⟩

/-- A line that ends in a newline is a text that does. -/
theorem exists_of_encode_eq {s : String} {body : List UInt8} (h : encode s = body ++ [newline]) :
    ∃ ds, s.toList = ds ++ ['\n'] := by
  rw [encode_eq_flatMap] at h
  obtain ⟨ds, es, hs, -, hes⟩ := exists_of_flatMap_eq h
  cases es with
  | nil => exact ⟨ds, hs⟩
  | cons e es =>
    obtain ⟨v, hseq, -⟩ := exists_sequence e
    have hne : String.utf8EncodeChar e ≠ [] := by
      intro h0
      rw [h0] at hseq
      cases hseq
    exact absurd (List.append_eq_nil_iff.1 hes.symm).1 hne

end IntLang.Text
