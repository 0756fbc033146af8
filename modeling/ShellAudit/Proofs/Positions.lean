-- SUMMARY: A node stands in the row that it says, at the column that it says or before it.
import ShellAudit.Proofs.Rows
import ShellAudit.Syntax.Grammar

/-!
# The positions of nodes

The positions of a node count bytes, and lines are made of characters. The bytes of a
node can only start where a character does, so the node stands somewhere in the text. Its
row is the row of that character, since no other character holds the byte of a line
feed. Its column is that of the character or lies behind it, as there may be characters of
several bytes before.
-/

namespace ShellAudit

namespace Text

/-! ## Bytes -/

/-- The bytes of characters. -/
def encode (s : List Char) : List UInt8 := s.flatMap String.utf8EncodeChar

@[simp] theorem encode_nil : encode [] = [] := rfl

@[simp] theorem encode_cons (c : Char) (s : List Char) :
    encode (c :: s) = String.utf8EncodeChar c ++ encode s := List.flatMap_cons

@[simp] theorem encode_append (s t : List Char) : encode (s ++ t) = encode s ++ encode t :=
  List.flatMap_append

/-- The first character can be read off the bytes. -/
theorem utf8EncodeChar_append_inj {c d : Char} {s t : List UInt8}
    (h : String.utf8EncodeChar c ++ s = String.utf8EncodeChar d ++ t) : c = d := by
  have decode (c : Char) (s : List UInt8) :
      (String.utf8EncodeChar c ++ s).toByteArray.utf8DecodeChar? 0 = some c := by
    rw [List.toByteArray_append]
    exact ByteArray.utf8DecodeChar?_utf8EncodeChar_append
  exact Option.some.inj (by rw [← decode c s, h, decode d t])

theorem prefix_of_encode_prefix {s t : List Char} (h : encode t <+: encode s) : t <+: s := by
  induction t generalizing s with
  | nil => exact List.nil_prefix
  | cons c t ih =>
    obtain ⟨rest, hrest⟩ := h
    cases s with
    | nil => simp [String.utf8EncodeChar_ne_nil] at hrest
    | cons d s =>
      rw [encode_cons, encode_cons, List.append_assoc] at hrest
      obtain rfl := utf8EncodeChar_append_inj hrest
      exact (List.prefix_cons_inj c).2 (ih ⟨rest, List.append_cancel_left hrest⟩)

/-- Where the bytes of a text stand among those of another, its characters stand. -/
theorem exists_split {s t : List Char} {offset : Nat} (hne : t ≠ [])
    (h : encode t <+: (encode s).drop offset) :
    ∃ front back, s = front ++ back ∧ (encode front).length = offset ∧ t <+: back := by
  induction s generalizing offset with
  | nil =>
    obtain ⟨c, t, rfl⟩ := List.exists_cons_of_ne_nil hne
    simp [String.utf8EncodeChar_ne_nil] at h
  | cons d s ih =>
    rw [encode_cons, List.drop_append] at h
    by_cases hzero : offset = 0
    · subst hzero
      exact ⟨[], d :: s, rfl, rfl, prefix_of_encode_prefix (by simpa using h)⟩
    · by_cases hinside : offset < (String.utf8EncodeChar d).length
      · -- No character starts inside another.
        obtain ⟨c, t, rfl⟩ := List.exists_cons_of_ne_nil hne
        have hpos : 0 < (String.utf8EncodeChar c).length :=
          List.length_pos_iff.2 String.utf8EncodeChar_ne_nil
        have hfirst : (String.utf8EncodeChar c)[0] = (String.utf8EncodeChar d)[offset] := by
          obtain ⟨rest, hrest⟩ := h
          have hhead := congrArg (·[0]?) hrest
          simp only [encode_cons, List.append_assoc] at hhead
          rw [List.getElem?_append_left hpos, List.getElem?_append_left
            (by rw [List.length_drop]; omega), List.getElem?_drop, Nat.add_zero,
            List.getElem?_eq_getElem hpos, List.getElem?_eq_getElem hinside] at hhead
          exact Option.some.inj hhead
        have hstarts : (String.utf8EncodeChar c)[0].IsUTF8FirstByte :=
          UInt8.isUTF8FirstByte_getElem_utf8EncodeChar.2 rfl
        rw [hfirst, UInt8.isUTF8FirstByte_getElem_utf8EncodeChar] at hstarts
        exact absurd hstarts hzero
      · rw [List.drop_eq_nil_of_le (Nat.le_of_not_lt hinside), List.nil_append] at h
        obtain ⟨front, back, rfl, hlength, hprefix⟩ := ih h
        refine ⟨d :: front, back, rfl, ?_, hprefix⟩
        rw [encode_cons, List.length_append, hlength]
        omega

theorem feed_mem_utf8EncodeChar {c : Char} : 10 ∈ String.utf8EncodeChar c ↔ c = '\n' := by
  constructor
  · intro h
    obtain ⟨i, hi, hfeed⟩ := List.getElem_of_mem h
    have hstarts : ((String.utf8EncodeChar c)[i]).IsUTF8FirstByte := by
      rw [hfeed]
      exact .inl rfl
    obtain rfl := UInt8.isUTF8FirstByte_getElem_utf8EncodeChar.1 hstarts
    have hcons : String.utf8EncodeChar c = 10 :: (String.utf8EncodeChar c).drop 1 := by
      rw [← hfeed, List.getElem_cons_drop, List.drop_zero]
    have hfeed : String.utf8EncodeChar '\n' = [10] := rfl
    exact utf8EncodeChar_append_inj (s := []) (t := (String.utf8EncodeChar c).drop 1)
      (by rw [List.append_nil, hfeed]; exact hcons)
  · rintro rfl
    decide

theorem count_utf8EncodeChar (c : Char) :
    (String.utf8EncodeChar c).count 10 = if c = '\n' then 1 else 0 := by
  split
  · subst c
    rfl
  · rename_i hc
    exact List.count_eq_zero.2 fun h => hc (feed_mem_utf8EncodeChar.1 h)

theorem count_encode (s : List Char) : (encode s).count 10 = s.count '\n' := by
  induction s with
  | nil => rfl
  | cons c s ih =>
    rw [encode_cons, List.count_append, count_utf8EncodeChar, ih, List.count_cons, Nat.add_comm]
    simp only [beq_iff_eq]

theorem takeWhile_encode_reverse (s : List Char) :
    (encode s.reverse).reverse.takeWhile (· ≠ 10) =
      (encode (rowEnd s.reverse)).reverse := by
  unfold rowEnd
  rw [List.reverse_reverse]
  induction s with
  | nil => rfl
  | cons c s ih =>
    rw [List.reverse_cons, encode_append, List.reverse_append, List.takeWhile_cons, encode_cons,
      encode_nil, List.append_nil]
    by_cases hc : c = '\n'
    · subst hc
      rfl
    · have hnone : ∀ b ∈ (String.utf8EncodeChar c).reverse, decide (b ≠ 10) = true := by
        intro b hb
        rw [decide_eq_true_eq]
        rintro rfl
        exact hc (feed_mem_utf8EncodeChar.1 (List.mem_reverse.1 hb))
      rw [List.takeWhile_append_of_pos hnone, ih, if_pos (by simpa using hc), List.reverse_cons,
        encode_append, encode_cons, encode_nil, List.append_nil, List.reverse_append]

/-- The bytes behind the last line feed are those of the characters behind it. -/
theorem takeWhile_encode (s : List Char) :
    (encode s).reverse.takeWhile (· ≠ 10) = (encode (rowEnd s)).reverse := by
  rw [← List.reverse_reverse s, takeWhile_encode_reverse]

theorem length_le_length_encode (s : List Char) : s.length ≤ (encode s).length := by
  induction s with
  | nil => exact Nat.le_refl 0
  | cons c s ih =>
    have := c.utf8Size_pos
    rw [encode_cons, List.length_append, String.length_utf8EncodeChar, List.length_cons]
    omega

end Text

/-! ## Sources -/

theorem toList_loop (bytes : ByteArray) (i : Nat) (front : List UInt8) :
    ByteArray.toList.loop bytes i front = front.reverse ++ bytes.data.toList.drop i := by
  induction hleft : bytes.data.toList.length - i generalizing i front with
  | zero =>
    have hsize : ¬i < bytes.size := fun h => by
      have : i < bytes.data.toList.length := h
      omega
    rw [ByteArray.toList.loop, if_neg hsize, List.drop_eq_nil_of_le (by omega), List.append_nil]
  | succ left ih =>
    have hi : i < bytes.data.toList.length := by omega
    have hsize : i < bytes.size := hi
    have hget : bytes.get! i = bytes.data.toList[i] := getElem!_pos bytes.data i hi
    rw [ByteArray.toList.loop, if_pos hsize, ih (i + 1) _ (by omega),
      List.drop_eq_getElem_cons hi, hget]
    simp

theorem toList_toByteArray (bytes : List UInt8) : bytes.toByteArray.toList = bytes := by
  rw [ByteArray.toList, toList_loop, List.data_toByteArray]
  rfl

theorem toByteArray_eq_encode (s : String) :
    s.toByteArray = (Text.encode s.toList).toByteArray := by
  conv => lhs; rw [← String.ofList_toList (s := s)]
  exact String.toByteArray_ofList

namespace Tree

theorem bytes_eq_encode (s : String) : bytes s = Text.encode s.toList := by
  have hbytes : s.toUTF8 = (Text.encode s.toList).toByteArray := toByteArray_eq_encode s
  rw [bytes, hbytes, toList_toByteArray]

/-- The bytes that a text is read from are its own. -/
theorem encode_of_textAt {source : List UInt8} {start stop : Nat} {text : String}
    (h : textAt source start stop = some text) :
    Text.encode text.toList <+: source.drop start := by
  unfold textAt String.fromUTF8? at h
  split at h
  · cases h
    have hbytes := congrArg (fun bytes => bytes.data.toList)
      (toByteArray_eq_encode (String.fromUTF8 ⟨((source.take stop).drop start).toArray⟩ ‹_›))
    simp only [List.data_toByteArray] at hbytes
    have hslice : (source.take stop).drop start <+: source.drop start := by
      rw [List.drop_take]
      exact List.take_prefix _ _
    rw [← hbytes]
    exact hslice
  · cases h

end Tree

/-! ## Nodes -/

/-- If the node has a text, the text stands in `s` at the row and at the column of the
node, the column counted in bytes. -/
def Node.StandsIn (s : List Char) (n : Node) : Prop :=
  ∀ text, n.text = some text → text ≠ "" → ∃ front back, s = front ++ back ∧
    n.row = front.count '\n' ∧
    n.column = (Text.encode (Text.rowEnd front)).length ∧
    text.toList <+: back

namespace Tree

mutual

/-- What the span of a node decides holds of every node of a tree, if it holds of every
span. -/
theorem resolve_every {source : List UInt8} {p : Node → Prop}
    (h : ∀ kind start stop children, p
      { kind := kind
        text := textAt source start stop
        row := rowAt source start
        column := columnAt source start
        endColumn := columnAt source stop
        children := children }) (t : Tree) : (t.resolve source).Every p := by
  obtain ⟨kind, start, stop, children⟩ := t
  refine Node.every_iff.2 ⟨?_, fun c hc => ?_⟩
  · rw [resolve]
    exact h kind start stop _
  · rw [resolve] at hc
    exact resolveAll_every h children c hc

theorem resolveAll_every {source : List UInt8} {p : Node → Prop}
    (h : ∀ kind start stop children, p
      { kind := kind
        text := textAt source start stop
        row := rowAt source start
        column := columnAt source start
        endColumn := columnAt source stop
        children := children }) (ts : List Tree) : ∀ n ∈ resolveAll source ts, n.Every p := by
  intro n hn
  cases ts with
  | nil => cases hn
  | cons t ts =>
    rw [resolveAll, List.mem_cons] at hn
    rcases hn with rfl | hn
    · exact resolve_every h t
    · exact resolveAll_every h ts n hn

end

theorem resolve_standsIn (s : List Char) (t : Tree) :
    (t.resolve (Text.encode s)).Every (Node.StandsIn s) := by
  refine resolve_every (fun kind start stop children text htext hne => ?_) t
  obtain ⟨front, back, rfl, hlength, hprefix⟩ :=
    Text.exists_split (fun h => hne (String.toList_eq_nil_iff.1 h)) (encode_of_textAt htext)
  refine ⟨front, back, rfl, ?_, ?_, hprefix⟩
  · rw [rowAt, Text.encode_append, ← hlength, List.take_left, Text.count_encode]
  · rw [columnAt, Text.encode_append, ← hlength, List.take_left, Text.takeWhile_encode,
      List.length_reverse, List.length_append, Nat.sub_eq_zero_of_le (Nat.le_add_right _ _),
      Nat.add_zero]

end Tree

/-- The first character of a node stands in the row of the node, at its column or before
it: no character takes less than a byte. -/
theorem Node.StandsIn.rows {s : List Char} {n : Node} (h : n.StandsIn s) {text : String}
    (htext : n.text = some text) {c : Char} (hc : text.toList.head? = some c) :
    ∃ row, (Text.rows s)[n.row]? = some row ∧ c ∈ row.take (n.column + 1) := by
  have hne : text ≠ "" := by
    rintro rfl
    cases hc
  obtain ⟨front, back, rfl, hrow, hcolumn, rest, hrest⟩ := h text htext hne
  obtain ⟨chars, hchars⟩ := List.head?_eq_some_iff.1 hc
  rw [hchars, List.cons_append] at hrest
  subst hrest
  obtain ⟨more, hmore⟩ := Text.getElem?_rows_append front c (chars ++ rest)
  refine ⟨_, hrow ▸ hmore, ?_⟩
  have hle : (Text.rowEnd front).length ≤ n.column := hcolumn ▸ Text.length_le_length_encode _
  rw [List.take_append, Nat.succ_sub hle, List.take_succ_cons]
  exact List.mem_append_right _ List.mem_cons_self

end ShellAudit
