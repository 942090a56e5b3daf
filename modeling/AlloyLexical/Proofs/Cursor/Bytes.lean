import AlloyLexical.Cursor
import AlloyLexical.Lexicon
import Mathlib.Data.List.TakeWhile
import Mathlib.Data.String.Basic

/-!
# Bytes of a text

How the bytes of a text, looked at as characters, tell the characters that they make
up. A character of ASCII is its own only byte, and no other character has a byte of
ASCII (`Cursor.lead_of_ascii`, `Cursor.lt_of_mem_encodeChar`).

Nothing is lost, then, where the bytes are searched for what takes all characters
beyond ASCII alike (`Cursor.IsUniform`):

* the bytes of a character have such a property just where the character has it
  (`Cursor.IsUniform.apply_eq`), and so have the bytes of a run of characters
  (`Cursor.IsUniform.takeWhile_encode`);
* a text begins with the same symbol as its bytes (`Cursor.symbol?_encode`).
-/

namespace AlloyLexical

namespace Cursor

variable {c d : Char} {cs : List Char}

/-- The bytes of a character. -/
def encodeChar (c : Char) : List Char := (String.utf8EncodeChar c).map Char.ofUInt8

/-- The bytes of some characters. -/
def encode (cs : List Char) : List Char := cs.flatMap encodeChar

@[simp] theorem encode_nil : encode [] = [] := rfl

@[simp] theorem encode_cons (c : Char) (cs : List Char) :
    encode (c :: cs) = encodeChar c ++ encode cs := List.flatMap_cons

@[simp] theorem encode_append (cs ds : List Char) : encode (cs ++ ds) = encode cs ++ encode ds :=
  List.flatMap_append

theorem toUTF8_eq (text : String) :
    text.toUTF8.data.toList = text.toList.flatMap String.utf8EncodeChar := by
  conv => lhs; rw [← String.ofList_toList (s := text)]
  rw [String.toUTF8_eq_toByteArray, String.toByteArray_ofList, List.utf8Encode,
    List.data_toByteArray]

theorem bytes_eq (text : String) : bytes text = encode text.toList := by
  rw [bytes, toUTF8_eq, List.map_flatMap]
  rfl

theorem length_encodeChar (c : Char) : (encodeChar c).length = c.utf8Size := by
  rw [encodeChar, List.length_map, String.length_utf8EncodeChar]

theorem length_encode (cs : List Char) : (encode cs).length = String.utf8Len cs := by
  induction cs with
  | nil => rfl
  | cons c cs ih =>
    rw [encode_cons, List.length_append, length_encodeChar, ih, String.utf8Len_cons, Nat.add_comm]

/-! ## The first byte -/

/-- The first byte of a character. -/
def lead (c : Char) : Char := (encodeChar c).headD c

theorem encodeChar_eq (c : Char) : encodeChar c = lead c :: (encodeChar c).tail := by
  rcases h : encodeChar c with _ | ⟨b, bs⟩
  · have hsize := c.utf8Size_pos
    rw [← length_encodeChar, h] at hsize
    cases hsize
  · rw [lead, h]
    rfl

theorem lead_mem (c : Char) : lead c ∈ encodeChar c := by
  rw [encodeChar_eq]
  exact List.mem_cons_self

theorem val_ofUInt8 (b : UInt8) : (Char.ofUInt8 b).val = b.toUInt32 := rfl

theorem encodeChar_of_ascii (h : c.val ≤ 127) : encodeChar c = [c] := by
  have hbyte : Char.ofUInt8 c.val.toUInt8 = c := by
    refine Char.ext ?_
    rw [val_ofUInt8, ← UInt32.toNat_inj, UInt8.toNat_toUInt32, UInt32.toNat_toUInt8]
    exact Nat.mod_eq_of_lt (Nat.lt_of_le_of_lt (UInt32.le_iff_toNat_le.1 h) (by decide))
  rw [encodeChar, String.utf8EncodeChar_eq_singleton (Char.utf8Size_eq_one_iff.2 h),
    List.map_singleton, hbyte]

theorem encode_of_ascii (h : ∀ c ∈ cs, c.val ≤ 127) : encode cs = cs := by
  induction cs with
  | nil => rfl
  | cons c cs ih =>
    rw [List.forall_mem_cons] at h
    rw [encode_cons, encodeChar_of_ascii h.1, ih h.2]
    rfl

theorem lead_of_ascii (h : c.val ≤ 127) : lead c = c := by
  rw [lead, encodeChar_of_ascii h]
  rfl

theorem lt_val_ofUInt8 {n : Nat} (h : 127 < n) (h' : n < 256) :
    127 < (Char.ofUInt8 (UInt8.ofNat n)).val := by
  rw [val_ofUInt8, UInt32.lt_iff_toNat_lt, UInt8.toNat_toUInt32, UInt8.toNat_ofNat',
    Nat.mod_eq_of_lt h']
  exact h

theorem lt_of_mem_encodeChar (h : 127 < c.val) : ∀ b ∈ encodeChar c, 127 < b.val := by
  have hlt : ¬c.val.toNat ≤ 127 := Nat.not_le_of_lt (UInt32.lt_iff_toNat_lt.1 h)
  rw [encodeChar, List.forall_mem_map]
  intro b hb
  rw [String.utf8EncodeChar] at hb
  simp only [hlt, if_false] at hb
  -- A character of two, three or four bytes: each of them has its highest bit set.
  split at hb
  · simp only [List.mem_cons, List.not_mem_nil, or_false] at hb
    rcases hb with rfl | rfl <;> exact lt_val_ofUInt8 (by omega) (by omega)
  split at hb
  · simp only [List.mem_cons, List.not_mem_nil, or_false] at hb
    rcases hb with rfl | rfl | rfl <;> exact lt_val_ofUInt8 (by omega) (by omega)
  · simp only [List.mem_cons, List.not_mem_nil, or_false] at hb
    rcases hb with rfl | rfl | rfl | rfl <;> exact lt_val_ofUInt8 (by omega) (by omega)

theorem lead_eq_iff (hd : d.val ≤ 127) : lead c = d ↔ c = d := by
  by_cases hc : c.val ≤ 127
  · rw [lead_of_ascii hc]
  · have hlt := lt_of_mem_encodeChar (UInt32.not_le.1 hc) _ (lead_mem c)
    constructor
    · rintro rfl
      exact absurd hd (UInt32.not_le.2 hlt)
    · rintro rfl
      exact absurd hd hc

theorem ne_of_mem_encodeChar (hd : d.val ≤ 127) (h : c ≠ d) : ∀ b ∈ encodeChar c, b ≠ d := by
  rintro b hb rfl
  by_cases hc : c.val ≤ 127
  · rw [encodeChar_of_ascii hc, List.mem_singleton] at hb
    exact h hb.symm
  · exact UInt32.not_le.2 (lt_of_mem_encodeChar (UInt32.not_le.1 hc) b hb) hd

theorem head?_encode (cs : List Char) : (encode cs).head? = cs.head?.map lead := by
  rcases cs with _ | ⟨c, cs⟩
  · rfl
  · rw [encode_cons, encodeChar_eq]
    rfl

/-! ## Properties of bytes -/

/-- Whether a property takes all characters beyond ASCII alike. -/
def IsUniform (p : Char → Bool) : Prop := ∀ c d : Char, 127 < c.val → 127 < d.val → p c = p d

/-- A property of no character beyond ASCII. -/
theorem isUniform_of_ascii {p : Char → Bool} (h : ∀ c, p c → c.val ≤ 127) : IsUniform p := by
  have hfalse (c : Char) (hc : 127 < c.val) : p c = false :=
    Bool.eq_false_iff.2 fun hp => UInt32.not_le.2 hc (h c hp)
  intro c d hc hd
  rw [hfalse c hc, hfalse d hd]

theorem isUniform_ne (hd : d.val ≤ 127) : IsUniform (· ≠ d) := by
  have htrue (c : Char) (hc : 127 < c.val) : c ≠ d := by
    rintro rfl
    exact UInt32.not_le.2 hc hd
  intro c c' hc hc'
  exact decide_eq_decide.2 (iff_of_true (htrue c hc) (htrue c' hc'))

theorem IsUniform.apply_eq {p : Char → Bool} (hp : IsUniform p) {b : Char} (hb : b ∈ encodeChar c) :
    p b = p c := by
  by_cases hc : c.val ≤ 127
  · rw [encodeChar_of_ascii hc, List.mem_singleton] at hb
    rw [hb]
  · have hc := UInt32.not_le.1 hc
    exact hp b c (lt_of_mem_encodeChar hc b hb) hc

theorem IsUniform.apply_lead {p : Char → Bool} (hp : IsUniform p) (c : Char) : p (lead c) = p c :=
  hp.apply_eq (lead_mem c)

theorem IsUniform.takeWhile_encode {p : Char → Bool} (hp : IsUniform p) (cs : List Char) :
    (encode cs).takeWhile p = encode (cs.takeWhile p) := by
  induction cs with
  | nil => rfl
  | cons c cs ih =>
    rw [encode_cons]
    by_cases hc : p c
    · rw [List.takeWhile_cons_of_pos hc, encode_cons,
        List.takeWhile_append_of_pos fun b hb => (hp.apply_eq hb).trans hc, ih]
    · rw [List.takeWhile_cons_of_neg hc, encodeChar_eq, List.cons_append,
        List.takeWhile_cons_of_neg ((hp.apply_lead c).symm ▸ hc)]
      rfl

/-! ## Beginnings of a text -/

theorem prefix_encode_iff {w : List Char} (hw : ∀ c ∈ w, c.val ≤ 127) :
    w <+: encode cs ↔ w <+: cs := by
  induction w generalizing cs with
  | nil => simp
  | cons d w ih =>
    rw [List.forall_mem_cons] at hw
    rcases cs with _ | ⟨c, cs⟩
    · rfl
    · rw [encode_cons, encodeChar_eq, List.cons_append, List.cons_prefix_cons,
        List.cons_prefix_cons, eq_comm, lead_eq_iff hw.1, eq_comm]
      refine and_congr_right ?_
      rintro rfl
      rw [encodeChar_of_ascii hw.1]
      exact ih hw.2

theorem ascii_of_symbol {entry : String × TokenKind} (h : entry ∈ Lexicon.symbols) :
    ∀ c ∈ entry.1.toList, c.val ≤ 127 := by
  have hall : Lexicon.symbols.all fun e => e.1.toList.all (·.val ≤ 127) := by decide
  intro c hc
  exact of_decide_eq_true (List.all_eq_true.1 (List.all_eq_true.1 hall entry h) c hc)

theorem symbol?_encode (cs : List Char) : Lexicon.symbol? (encode cs) = Lexicon.symbol? cs := by
  rw [Lexicon.symbol?, Lexicon.symbol?, ← List.head?_filterMap, ← List.head?_filterMap]
  refine congrArg List.head? (List.filterMap_congr fun entry hentry => ?_)
  simp only [List.isPrefixOf_iff_prefix, prefix_encode_iff (ascii_of_symbol hentry)]

theorem ofUInt8_inj {a b : UInt8} (h : Char.ofUInt8 a = Char.ofUInt8 b) : a = b := by
  have hval : a.toUInt32 = b.toUInt32 := congrArg Char.val h
  exact UInt8.toUInt32_inj.1 hval

/-- No character begins with the bytes of another. -/
theorem eq_of_prefix_encode (h : encodeChar d <+: encode (c :: cs)) : d = c := by
  obtain ⟨more, hmore⟩ := h
  have hbytes : encode (c :: cs) = ((c :: cs).flatMap String.utf8EncodeChar).map Char.ofUInt8 := by
    rw [List.map_flatMap]
    rfl
  rw [hbytes, eq_comm, encodeChar, List.map_eq_append_iff] at hmore
  obtain ⟨l, l', hl, hd, -⟩ := hmore
  obtain rfl := (List.map_inj_right fun _ _ => @ofUInt8_inj _ _).1 hd
  have hdecode := @ByteArray.utf8DecodeChar?_utf8EncodeChar_append l'.toByteArray d
  rw [← List.toByteArray_append, ← hl] at hdecode
  exact Option.some.inj (hdecode.symm.trans List.utf8DecodeChar?_utf8Encode_cons)

end Cursor

end AlloyLexical
