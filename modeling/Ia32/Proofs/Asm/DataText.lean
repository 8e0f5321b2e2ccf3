import Ia32.Proofs.Asm.LineText
import Ia32.Proofs.Asm.NumberText

/-!
# Lines that store bytes

A line that stores bytes has strings and numbers as its items. The search for a comment and the
split at commas each keep track of quotes on their own. Both pass over the text of an item as a
whole, whatever stands inside its quotes, and so the line stores the bytes of its items one after
another, with a zero byte behind them if there is a string.
-/

namespace Ia32.Asm

open Text (Blanks blanks_nil trim_around)

/-! ### Text that is passed over -/

/-- Text in which no comment and no further piece starts, and which leaves no quote and no bracket
open. -/
structure Passed (s : List Char) : Prop where
  comment : ∀ rest, dropComment none (s ++ rest) = s ++ dropComment none rest
  comma : ∀ {rest piece : List Char} {pieces : List (List Char)} {unclosed : Bool},
    splitCommas none 0 rest = (piece :: pieces, unclosed) →
      splitCommas none 0 (s ++ rest) = ((s ++ piece) :: pieces, unclosed)

theorem passed_nil : Passed [] :=
  ⟨fun _ => rfl, fun h => h⟩

/-- Texts that a scan passes over can be put one behind the other. -/
theorem Passed.append {s t : List Char} (hs : Passed s) (ht : Passed t) : Passed (s ++ t) where
  comment rest := by rw [List.append_assoc, hs.comment, ht.comment, List.append_assoc]
  comma h := by
    rw [List.append_assoc, List.append_assoc]
    exact hs.comma (ht.comma h)

/-- Characters that neither search looks at. -/
def Mild (s : List Char) : Prop :=
  ∀ c ∈ s, c ≠ '\'' ∧ c ≠ '"' ∧ c ≠ ';' ∧ c ≠ ',' ∧ c ≠ '[' ∧ c ≠ ']'

/-- A text without quotes, separators and brackets is passed over. -/
theorem Mild.passed {s : List Char} (h : Mild s) : Passed s := by
  induction s with
  | nil => exact passed_nil
  | cons c s ih =>
      obtain ⟨hsingle, hdouble, hcomment, hcomma, hopen, hclose⟩ := h c List.mem_cons_self
      have hrest := ih fun d hd => h d (List.mem_cons_of_mem c hd)
      have hquote : nextQuote none c = none := by simp [nextQuote, hsingle, hdouble]
      have hdepth : nextDepth 0 c = 0 := by simp [nextDepth, hopen, hclose]
      constructor
      · intro rest
        rw [List.cons_append, dropComment, if_neg (by simp [hcomment]), hquote, hrest.comment]
        rfl
      · intro rest piece pieces unclosed hsplit
        rw [List.cons_append, splitCommas, if_neg (by simp [hcomma])]
        simp only [hquote, hdepth, Option.isSome_none, Bool.false_eq_true, if_false,
          hrest.comma hsplit]
        rfl

theorem Plain.mild {s : List Char} (h : Plain s) : Mild s := by
  intro c hc
  have hne {d : Char} (hname : isNameChar d = false) (hsign : isSign d = false) : c ≠ d := by
    rintro rfl
    rcases h c hc with hc | hc
    · rw [hname] at hc
      cases hc
    · rw [hsign] at hc
      cases hc
  exact ⟨hne rfl rfl, hne rfl rfl, hne rfl rfl, hne rfl rfl, hne rfl rfl, hne rfl rfl⟩

theorem mild_of_blanks {s : List Char} (h : Blanks s) : Mild s := by
  intro c hc
  have hne {d : Char} (hd : Text.isBlank d = false) : c ≠ d := by
    rintro rfl
    rw [h c hc] at hd
    cases hd
  exact ⟨hne rfl, hne rfl, hne rfl, hne rfl, hne rfl, hne rfl⟩

/-- Inside a quote only the same quote counts. -/
theorem dropComment_inside {quote : Char} {content : List Char} (hcontent : quote ∉ content)
    (rest : List Char) : dropComment (some quote) (content ++ quote :: rest) =
      content ++ quote :: dropComment none rest := by
  induction content with
  | nil => simp [dropComment, nextQuote]
  | cons c content ih =>
      have hc : c ≠ quote := fun heq => hcontent (heq ▸ List.mem_cons_self)
      rw [List.cons_append, dropComment, if_neg (by simp), nextQuote, if_neg hc,
        ih fun hmem => hcontent (List.mem_cons_of_mem c hmem)]
      rfl

/-- Inside of quotes no comma separates. -/
theorem splitCommas_inside {quote : Char} {content : List Char} (hcontent : quote ∉ content)
    {rest piece : List Char} {pieces : List (List Char)} {unclosed : Bool}
    (hrest : splitCommas none 0 rest = (piece :: pieces, unclosed)) :
    splitCommas (some quote) 0 (content ++ quote :: rest) =
      ((content ++ quote :: piece) :: pieces, unclosed) := by
  induction content with
  | nil => simp [splitCommas, nextQuote, hrest]
  | cons c content ih =>
      have hc : c ≠ quote := fun heq => hcontent (heq ▸ List.mem_cons_self)
      rw [List.cons_append, splitCommas, if_neg (by simp), nextQuote, if_neg hc]
      simp only [Option.isSome_some, if_true, ih fun hmem => hcontent (List.mem_cons_of_mem c hmem)]
      rfl

/-- A quoted text begins and ends with its quotes, so nothing is trimmed from it. -/
theorem trimmed_quoted {quote : Char} (hquote : quote = '\'' ∨ quote = '"')
    (content : List Char) : Text.Trimmed (quote :: (content ++ [quote])) := by
  have hblank : Text.isBlank quote = false := by rcases hquote with rfl | rfl <;> decide
  constructor
  · intro c hc
    cases hc
    exact hblank
  · intro c hc
    rw [← List.cons_append, List.getLast?_concat] at hc
    cases hc
    exact hblank

/-- A quoted text is passed over as a whole, whatever stands inside the quotes. -/
theorem passed_quoted {quote : Char} (hquote : quote = '\'' ∨ quote = '"') {content : List Char}
    (hcontent : quote ∉ content) : Passed (quote :: (content ++ [quote])) := by
  have hmark : quote ≠ ';' ∧ quote ≠ ',' := by rcases hquote with rfl | rfl <;> decide
  have hdepth : nextDepth 0 quote = 0 := by rcases hquote with rfl | rfl <;> rfl
  have htext (rest : List Char) :
      quote :: (content ++ [quote]) ++ rest = quote :: (content ++ quote :: rest) := by simp
  constructor
  · intro rest
    rw [htext, dropComment, if_neg (by simp [hmark.1]), nextQuote, if_pos hquote,
      dropComment_inside hcontent, htext]
  · intro rest piece pieces unclosed hsplit
    rw [htext, htext, splitCommas, if_neg (by simp [hmark.2])]
    simp only [nextQuote, if_pos hquote, Option.isSome_none, Bool.false_eq_true, if_false, hdepth,
      splitCommas_inside hcontent hsplit]

/-! ### Items -/

/-- An item of a line that stores bytes. -/
inductive DataItem where
  | string (content : String)
  | number (v : Int)

namespace DataItem

/-- The bytes of an item: those of a text as they are, or the eight low bits of a number. -/
def bytes : DataItem → Bytes
  | string content => utf8Bytes content
  | number v => [UInt8.ofNat (v % 256).toNat]

/-- Whether an item is a string. -/
def isString : DataItem → Bool
  | string _ => true
  | number _ => false

/-- The written forms of an item: a text between quotes of a kind that it does not contain, or a
number from -128 to 255. -/
inductive Spelled : DataItem → List Char → Prop
  | string {quote : Char} {content : String} (hquote : quote = '\'' ∨ quote = '"')
      (hcontent : quote ∉ content.toList) :
      Spelled (.string content) (quote :: (content.toList ++ [quote]))
  | natural {s : List Char} {n : Nat} (h : Literal s n) (hn : n ≤ 255) : Spelled (.number n) s
  | negative {s : List Char} {n : Nat} (h : Literal s n) (hn : n ≤ 128) :
      Spelled (.number (-n)) ('-' :: s)

end DataItem

/-- The bytes that items store: a zero byte ends them if there is a string. -/
def storedBytes (items : List DataItem) : Bytes :=
  items.flatMap DataItem.bytes ++ if items.any DataItem.isString then [0] else []

/-- The written forms of one or more items: a comma between two of them, and any blanks around
each. -/
inductive ItemsText : List DataItem → List Char → Prop
  | last {item : DataItem} {before s after : List Char} (hbefore : Blanks before)
      (hs : item.Spelled s) (hafter : Blanks after) : ItemsText [item] (before ++ (s ++ after))
  | more {item : DataItem} {items : List DataItem} {before s after rest : List Char}
      (hbefore : Blanks before) (hs : item.Spelled s) (hafter : Blanks after)
      (hrest : ItemsText items rest) :
      ItemsText (item :: items) (before ++ (s ++ (after ++ ',' :: rest)))

theorem plain_of_literal {s : List Char} {n : Nat} (h : Literal s n) : Plain s := by
  have hdigit : ∀ d < 16, isNameChar (Nat.digitChar d) = true ∧
      isNameChar (Nat.digitChar d).toUpper = true := by decide
  have hnumeral {base : Nat} (hbase : base ≤ 16) {t : List Char}
      (ht : Text.Numeral base (dropUnderscores t) n) : Plain t := by
    intro c hc
    by_cases hunderscore : c = '_'
    · subst hunderscore
      exact .inl rfl
    · obtain ⟨d, hd, rfl | rfl⟩ :=
        ht.isDigit c (List.mem_filter.mpr ⟨hc, by simpa using hunderscore⟩)
      · exact .inl (hdigit d (Nat.lt_of_lt_of_le hd hbase)).1
      · exact .inl (hdigit d (Nat.lt_of_lt_of_le hd hbase)).2
  cases h with
  | decimal hc h => exact hnumeral (by decide) h
  | @marked mark _ _ _ hmark h =>
      have hmarkChar : isNameChar mark = true := by
        rcases mem_baseMarks.mp hmark with ⟨rfl, -⟩ | ⟨rfl, -⟩ | ⟨rfl, -⟩ | ⟨rfl, -⟩ <;> rfl
      have hfront : Plain ['0', mark] := by
        intro c hc
        rcases List.mem_pair.mp hc with rfl | rfl
        · exact .inl rfl
        · exact .inl hmarkChar
      exact hfront.append (hnumeral (base_le_of_mem_baseMarks hmark) h)

theorem unquote?_eq_none {c : Char} {rest : List Char} (h : Solid (c :: rest)) :
    unquote? (c :: rest) = none := by
  obtain ⟨-, hsingle, hdouble, -⟩ := h c List.mem_cons_self
  unfold unquote?
  rw [h.trimmed.trim]
  dsimp only
  rw [between?_eq_none hsingle, between?_eq_none hdouble]

/-- What stands between the quotes is read as it is. -/
theorem unquote?_quoted {quote : Char} (hquote : quote = '\'' ∨ quote = '"')
    (content : List Char) : unquote? (quote :: (content ++ [quote])) = some content := by
  unfold unquote?
  rw [(trimmed_quoted hquote content).trim]
  rcases hquote with rfl | rfl <;> simp [between?, Text.dropFirst?, Text.dropLast?]

/-- A number that fits a byte is one byte of data. -/
theorem readItem_of_number {c : Char} {rest : List Char} {v : Int} (h : Solid (c :: rest))
    (hnumber : number? (c :: rest) = .ok (some v)) (hrange : -128 ≤ v ∧ v ≤ 255) :
    readItem (c :: rest) = pure [byteOfInt v] := by
  unfold readItem
  rw [unquote?_eq_none h, hnumber]
  change (if -128 ≤ v ∧ v ≤ 255 then pure [byteOfInt v] else _ : Reading Bytes) = _
  rw [if_pos hrange]

namespace DataItem.Spelled

variable {item : DataItem} {s : List Char}

/-- Numbers have no quotes, and are read as what they spell. -/
theorem number {v : Int} (h : Spelled (.number v) s) :
    Plain s ∧ ∃ c rest, s = c :: rest ∧ number? s = .ok (some v) ∧ -128 ≤ v ∧ v ≤ 255 := by
  have hfits {v : Int} (hv : -128 ≤ v ∧ v ≤ 255) : fitsNumber v ∧ v ≠ leastNumber := by
    rw [fitsNumber_iff, leastNumber]
    omega
  cases h with
  | @natural _ n h hn =>
      obtain ⟨c, rest, rfl, -⟩ := h.exists_digit
      have hrange : -128 ≤ (n : Int) ∧ (n : Int) ≤ 255 := by omega
      exact ⟨plain_of_literal h, c, rest, rfl,
        number?_eq_some_iff.mpr ⟨(hfits hrange).1, .inl ⟨.plain h, (hfits hrange).2⟩⟩, hrange⟩
  | @negative t n h hn =>
      have hrange : -128 ≤ -(n : Int) ∧ -(n : Int) ≤ 255 := by omega
      exact ⟨(plain_sign rfl).append (plain_of_literal h), '-', t, rfl,
        number?_eq_some_iff.mpr ⟨(hfits hrange).1, .inl ⟨.minus h, (hfits hrange).2⟩⟩, hrange⟩

theorem ne_nil (h : item.Spelled s) : s ≠ [] := by
  cases item with
  | string => cases h; simp
  | number v =>
      obtain ⟨-, c, rest, rfl, -⟩ := h.number
      exact List.cons_ne_nil c rest

theorem trimmed (h : item.Spelled s) : Text.Trimmed s := by
  cases item with
  | string =>
      cases h with
      | string hquote => exact trimmed_quoted hquote _
  | number v => exact h.number.1.solid.trimmed

/-- No separator of the line stands in an item outside of its quotes. -/
theorem passed (h : item.Spelled s) : Passed s := by
  cases item with
  | string =>
      cases h with
      | string hquote hcontent => exact passed_quoted hquote hcontent
  | number v => exact h.number.1.mild.passed

/-- Blanks around an item are passed over with it. -/
theorem passed_around (h : item.Spelled s) {before after : List Char} (hbefore : Blanks before)
    (hafter : Blanks after) : Passed (before ++ (s ++ after)) :=
  (mild_of_blanks hbefore).passed.append (h.passed.append (mild_of_blanks hafter).passed)

theorem isSome_unquote? (h : item.Spelled s) : (unquote? s).isSome = item.isString := by
  cases item with
  | string =>
      cases h with
      | string hquote => rw [unquote?_quoted hquote]; rfl
  | number v =>
      obtain ⟨hplain, c, rest, rfl, -⟩ := h.number
      rw [unquote?_eq_none hplain.solid]
      rfl

/-- An item is read as its bytes, in all three spellings. -/
theorem readItem (h : item.Spelled s) : readItem s = pure item.bytes := by
  cases item with
  | string content =>
      cases h with
      | string hquote =>
          unfold Asm.readItem
          simp only [unquote?_quoted hquote, String.ofList_toList]
          rfl
  | number v =>
      obtain ⟨hplain, c, rest, rfl, hnumber, hrange⟩ := h.number
      exact readItem_of_number hplain.solid hnumber hrange

end DataItem.Spelled

/-! ### Lists of items -/

namespace ItemsText

variable {items : List DataItem} {body : List Char}

theorem ne_nil (h : ItemsText items body) : items ≠ [] := by
  cases h <;> exact List.cons_ne_nil _ _

/-- No comment starts in front of the end of the items. -/
theorem comment (h : ItemsText items body) (rest : List Char) :
    dropComment none (body ++ rest) = body ++ dropComment none rest := by
  induction h with
  | last hbefore hs hafter =>
      exact (hs.passed_around hbefore hafter).comment rest
  | @more item items before s after tail hbefore hs hafter _ ih =>
      have hfront := hs.passed_around hbefore hafter
      have htext (t : List Char) : before ++ (s ++ (after ++ ',' :: t)) =
          before ++ (s ++ after) ++ ',' :: t := by simp
      have hcomma : dropComment none (',' :: (tail ++ rest)) =
          ',' :: (tail ++ dropComment none rest) := by
        rw [dropComment, if_neg (by simp)]
        exact congrArg _ ih
      rw [htext, List.append_assoc, List.cons_append, hfront.comment, hcomma]
      simp

/-- The split at commas gives the items, with their blanks. -/
theorem split (h : ItemsText items body) :
    ∃ pieces, splitCommas none 0 body = (pieces, false) ∧
      List.Forall₂ DataItem.Spelled items (pieces.map Text.trim) := by
  induction h with
  | last hbefore hs hafter =>
      have hpassed := hs.passed_around hbefore hafter
      have hsplit := hpassed.comma (rfl : splitCommas none 0 [] = ([[]], false))
      rw [List.append_nil] at hsplit
      refine ⟨_, hsplit, .cons ?_ .nil⟩
      rwa [trim_around hbefore hs.trimmed hs.ne_nil hafter]
  | @more item items before s after tail hbefore hs hafter _ ih =>
      obtain ⟨pieces, hpieces, hspelled⟩ := ih
      have hpassed := hs.passed_around hbefore hafter
      have hcomma : splitCommas none 0 (',' :: tail) = ([] :: pieces, false) := by
        rw [splitCommas, if_pos (by simp), hpieces]
      have hsplit := hpassed.comma hcomma
      have htext : before ++ (s ++ (after ++ ',' :: tail)) =
          before ++ (s ++ after) ++ ',' :: tail := by simp
      rw [htext]
      refine ⟨_, hsplit, .cons ?_ hspelled⟩
      rwa [List.append_nil, trim_around hbefore hs.trimmed hs.ne_nil hafter]

theorem blanks_append (h : ItemsText items body) {blanks : List Char} (hblanks : Blanks blanks) :
    ItemsText items (blanks ++ body) := by
  cases h with
  | last hbefore hs hafter =>
      rw [← List.append_assoc]
      exact .last (hblanks.append hbefore) hs hafter
  | more hbefore hs hafter hrest =>
      rw [← List.append_assoc]
      exact .more (hblanks.append hbefore) hs hafter hrest

/-- The items between the first and the last character that is not blank. -/
theorem exists_tight (h : ItemsText items body) :
    ∃ before tight after, body = before ++ (tight ++ after) ∧ Blanks before ∧ Blanks after ∧
      ItemsText items tight ∧ Text.Trimmed tight ∧ tight ≠ [] := by
  induction h with
  | @last item before s after hbefore hs hafter =>
      have htight : ItemsText [item] s := by simpa using ItemsText.last blanks_nil hs blanks_nil
      exact ⟨before, s, after, rfl, hbefore, hafter, htight, hs.trimmed, hs.ne_nil⟩
  | @more item items before s after rest hbefore hs hafter _ ih =>
      obtain ⟨before', tight, after', rfl, hbefore', hafter', htight, htrimmed, hfull⟩ := ih
      refine ⟨before, s ++ (after ++ ',' :: before' ++ tight), after', by simp, hbefore, hafter',
        ?_, hs.trimmed.around hs.ne_nil _ htrimmed hfull, by simp [hs.ne_nil]⟩
      simpa using ItemsText.more blanks_nil hs hafter (htight.blanks_append hbefore')

end ItemsText

/-- Items are read one after the other. -/
theorem readItems_spelled {items : List DataItem} {texts : List (List Char)}
    (h : List.Forall₂ DataItem.Spelled items texts) :
    readItems texts = pure (items.flatMap DataItem.bytes) := by
  induction h with
  | nil => rfl
  | cons hitem _ ih =>
      rw [readItems, hitem.readItem, ih]
      rfl

theorem any_unquote?_spelled {items : List DataItem} {texts : List (List Char)}
    (h : List.Forall₂ DataItem.Spelled items texts) :
    texts.any (fun text => (unquote? text).isSome) = items.any DataItem.isString := by
  induction h with
  | nil => rfl
  | cons hitem _ ih => rw [List.any_cons, List.any_cons, hitem.isSome_unquote?, ih]

theorem any_isEmpty_spelled {items : List DataItem} {texts : List (List Char)}
    (h : List.Forall₂ DataItem.Spelled items texts) : texts.any List.isEmpty = false := by
  induction h with
  | nil => rfl
  | cons hitem _ ih =>
      rw [List.any_cons, ih, Bool.or_false, List.isEmpty_eq_false_iff]
      exact hitem.ne_nil

/-- Items are read as the bytes that they store. -/
theorem readBytes_items {items : List DataItem} {body : List Char} (h : ItemsText items body)
    (htrimmed : Text.Trimmed body) (hfull : body ≠ []) :
    readBytes body = pure (storedBytes items) := by
  obtain ⟨pieces, hpieces, hspelled⟩ := h.split
  have hoperands : splitOperands body = pure (pieces.map Text.trim) := by
    unfold splitOperands
    rw [htrimmed.trim, if_neg (by simpa using hfull)]
    simp only [hpieces, any_isEmpty_spelled hspelled, Bool.false_eq_true, if_false]
  have hitems : (pieces.map Text.trim).isEmpty = false := by
    rw [List.isEmpty_eq_false_iff, ← List.length_pos_iff, ← hspelled.length_eq]
    exact List.length_pos_iff.mpr h.ne_nil
  unfold readBytes
  rw [hoperands, pure_bind]
  simp only [hitems, Bool.false_eq_true, if_false, readItems_spelled hspelled, pure_bind,
    any_unquote?_spelled hspelled, storedBytes]
  cases items.any DataItem.isString with
  | true => rfl
  | false => simp

/-! ### Strings and bytes alone -/

/-- A quoted text is stored with a zero byte behind it. -/
theorem readBytes_quoted {quote : Char} {content : String} (hquote : quote = '\'' ∨ quote = '"')
    (hcontent : quote ∉ content.toList) :
    readBytes (quote :: (content.toList ++ [quote])) = pure (utf8Bytes content ++ [0]) := by
  have hitem := ItemsText.last blanks_nil (.string hquote hcontent) blanks_nil
  rw [List.nil_append, List.append_nil] at hitem
  simpa [storedBytes, DataItem.bytes, DataItem.isString] using
    readBytes_items hitem (trimmed_quoted hquote content.toList) (List.cons_ne_nil _ _)

/-- The written numbers of bytes. -/
def byteText (bytes : Bytes) : List Char :=
  (Text.joinWith ", " (bytes.map fun b => toString b.toNat)).toList

theorem spelled_byte (b : UInt8) :
    (DataItem.number b.toNat).Spelled (toString b.toNat).toList := by
  have hlt := b.toNat_lt
  have htext : (toString b.toNat).toList = Nat.toDigits 10 b.toNat := Nat.toList_repr
  have hunderscore : '_' ∉ Nat.toDigits 10 b.toNat :=
    fun hmem => absurd (Text.isDigit_of_mem_toDigits hmem) (by decide)
  have hnumeral : Text.Numeral 10 (dropUnderscores (Nat.toDigits 10 b.toNat)) b.toNat := by
    have hkept : dropUnderscores (Nat.toDigits 10 b.toNat) = Nat.toDigits 10 b.toNat := by
      refine List.filter_eq_self.mpr fun c hc => bne_iff_ne.mpr ?_
      rintro rfl
      exact hunderscore hc
    rw [hkept]
    exact Text.numeral_toDigits (by decide) b.toNat
  rw [htext]
  obtain ⟨c, rest, hdigits⟩ := List.exists_cons_of_ne_nil (@Nat.toDigits_ne_nil b.toNat 10)
  rw [hdigits] at hunderscore hnumeral ⊢
  exact .natural (.decimal (fun heq => hunderscore (heq ▸ List.mem_cons_self)) hnumeral) (by omega)

/-- Bytes written out as numbers are a list of items. -/
theorem itemsText_byteText {bytes : Bytes} (h : bytes ≠ []) :
    ItemsText (bytes.map fun b => .number b.toNat) (byteText bytes) := by
  induction bytes with
  | nil => exact absurd rfl h
  | cons b rest ih =>
      cases rest with
      | nil =>
          have hlast := ItemsText.last blanks_nil (spelled_byte b) blanks_nil
          rwa [List.nil_append, List.append_nil] at hlast
      | cons c rest =>
          have hspace : Blanks [' '] := by simp [Blanks, Text.isBlank]
          have hrest := (ih (List.cons_ne_nil c rest)).blanks_append hspace
          simpa [byteText, Text.joinWith] using
            ItemsText.more blanks_nil (spelled_byte b) blanks_nil hrest

theorem trimmed_byteText (bytes : Bytes) :
    Text.Trimmed (byteText bytes) ∧ (bytes ≠ [] → byteText bytes ≠ []) := by
  obtain ⟨htrimmed, hfull⟩ := trimmed_joinWith (bytes.map fun b => toString b.toNat)
    fun t ht => by
      obtain ⟨b, -, rfl⟩ := List.mem_map.mp ht
      exact ⟨(spelled_byte b).number.1.solid, (spelled_byte b).ne_nil⟩
  exact ⟨htrimmed, fun h => hfull (by simpa using h)⟩

theorem unquoted_byteText (bytes : Bytes) : Unquoted (byteText bytes) :=
  unquoted_joinWith fun t ht => by
    obtain ⟨b, -, rfl⟩ := List.mem_map.mp ht
    exact (spelled_byte b).number.1.solid.unquoted

/-- Bytes given by their numbers are stored as they are. -/
theorem readBytes_byteText {bytes : Bytes} (h : bytes ≠ []) :
    readBytes (byteText bytes) = pure bytes := by
  obtain ⟨htrimmed, hfull⟩ := trimmed_byteText bytes
  have hstored : storedBytes (bytes.map fun b => .number b.toNat) = bytes := by
    have hbyte (b : UInt8) : UInt8.ofNat ((b.toNat : Int) % 256).toNat = b := by
      have hlt := b.toNat_lt
      rw [show ((b.toNat : Int) % 256).toNat = b.toNat by omega, UInt8.ofNat_toNat]
    have hstring : (bytes.map fun b => DataItem.number b.toNat).any DataItem.isString = false := by
      simp [DataItem.isString]
    rw [storedBytes, hstring]
    simp [List.flatMap_map, DataItem.bytes, hbyte]
  rw [readBytes_items (itemsText_byteText h) htrimmed (hfull h), hstored]

/-! ### Lines -/

/-- The label in front of a statement, if there is one, with the blanks behind its colon. -/
inductive LabelText : Option String → List Char → Prop
  | absent : LabelText none []
  | present {name : String} {blanks : List Char} (hname : isName name.toList = true)
      (hblanks : Blanks blanks) (hfull : blanks ≠ []) :
      LabelText (some name) (name.toList ++ ':' :: blanks)

/-- The word that starts a statement that stores bytes, in either case. -/
def IsDataWord (word : List Char) : Prop :=
  word ∈ ["db".toList, "dB".toList, "Db".toList, "DB".toList]

/-- The written forms of a line that stores items: a label or none, the word, blanks, the items,
and a comment or none. -/
inductive DataLine (label : Option String) (items : List DataItem) : List Char → Prop
  | line {lead front word gap body comment : List Char} (hlead : Blanks lead)
      (hfront : LabelText label front) (hword : IsDataWord word) (hgap : Blanks gap)
      (hapart : gap ≠ []) (hbody : ItemsText items body)
      (hcomment : comment = [] ∨ ∃ text, comment = ';' :: text) :
      DataLine label items (lead ++ (front ++ (word ++ (gap ++ (body ++ comment)))))

theorem LabelText.mild {label : Option String} {front : List Char} (h : LabelText label front) :
    Mild front := by
  cases h with
  | absent => simp [Mild]
  | present hname hblanks =>
      have hcolon : Mild [':'] := by simp [Mild]
      intro c hc
      rcases List.mem_append.mp hc with hc | hc
      · exact (plain_of_isName hname).mild c hc
      · rcases List.mem_cons.mp hc with rfl | hc
        · exact hcolon _ (List.mem_singleton.mpr rfl)
        · exact mild_of_blanks hblanks c hc

theorem plain_dataWord {word : List Char} (h : IsDataWord word) : Plain word := by
  simp only [IsDataWord, List.mem_cons, List.not_mem_nil, or_false] at h
  rcases h with rfl | rfl | rfl | rfl <;> exact plain_of_isName rfl

/-- The word of a data line ends at the first blank. -/
theorem takeWhile_dataWord {word gap : List Char} (hword : IsDataWord word) (hgap : Blanks gap)
    (hapart : gap ≠ []) (rest : List Char) :
    (word ++ (gap ++ rest)).takeWhile (!Text.isBlank ·) = word ∧
      (word ++ (gap ++ rest)).dropWhile (!Text.isBlank ·) = gap ++ rest := by
  obtain ⟨c, gap, rfl⟩ := List.exists_cons_of_ne_nil hapart
  have hc : Text.isBlank c = true := hgap c List.mem_cons_self
  have hsolid : ∀ d ∈ word, (!Text.isBlank d) = true := fun d hd => by
    simp [(plain_dataWord hword).solid.not_blank d hd]
  rw [List.takeWhile_append_of_pos hsolid, List.dropWhile_append_of_pos hsolid, List.cons_append]
  simp [hc]

/-- The statement of a line that stores bytes. -/
theorem read_dataStatement {word gap body : List Char} {bytes : Bytes}
    (hword : IsDataWord word) (hgap : Blanks gap) (hapart : gap ≠ [])
    (htrimmed : Text.Trimmed body) (hfull : body ≠ []) (hread : readBytes body = pure bytes) :
    Statement.read (word ++ (gap ++ body)) = pure (some (.bytes bytes)) := by
  obtain ⟨hhead, htail⟩ := takeWhile_dataWord hword hgap hapart body
  have htrim : Text.trim (gap ++ body) = body := by
    simpa using trim_around hgap htrimmed hfull blanks_nil
  have hname : word.isEmpty = false ∧ Text.lower word ≠ "section".toList ∧
      Text.lower word = "db".toList := by
    simp only [IsDataWord, List.mem_cons, List.not_mem_nil, or_false] at hword
    rcases hword with rfl | rfl | rfl | rfl <;> decide
  obtain ⟨hnotEmpty, hsection, hbytes⟩ := hname
  unfold Statement.read
  simp only [hhead, htail, htrim, hnotEmpty, Bool.false_eq_true, if_false, if_neg hsection,
    if_pos hbytes, hread]
  rfl

/-- What is left without the comment decides what a line stores. -/
theorem readsAs_data {source lead front word gap tail after : List Char} {label : Option String}
    {bytes : Bytes} (hlead : Blanks lead) (hfront : LabelText label front)
    (hword : IsDataWord word) (hgap : Blanks gap) (hapart : gap ≠ [])
    (htrimmed : Text.Trimmed tail) (hfull : tail ≠ []) (hafter : Blanks after)
    (hsource : dropComment none source = lead ++ (front ++ (word ++ (gap ++ (tail ++ after)))))
    (hread : readBytes tail = pure bytes) : ReadsAs source label (some (.bytes bytes)) := by
  have hwordFull : word ≠ [] := by
    rintro rfl
    simp [IsDataWord] at hword
  have hstatement := read_dataStatement hword hgap hapart htrimmed hfull hread
  have hcode : Text.Trimmed (word ++ (gap ++ tail)) :=
    (plain_dataWord hword).solid.trimmed.around hwordFull gap htrimmed hfull
  cases hfront with
  | absent =>
      refine readsAs_of_statement ?_ ?_ hstatement
      · rw [hsource]
        simpa using trim_around hlead hcode (by simp [hwordFull]) hafter
      · rw [(takeWhile_dataWord hword hgap hapart tail).1]
        simp only [IsDataWord, List.mem_cons, List.not_mem_nil, or_false] at hword
        rcases hword with rfl | rfl | rfl | rfl <;> decide
  | @present name blanks hname hblanks hblanksFull =>
      have hnameFull : name.toList ≠ [] := by
        intro hempty
        rw [hempty] at hname
        cases hname
      have htrim : Text.trim (blanks ++ (word ++ (gap ++ tail))) = word ++ (gap ++ tail) := by
        simpa using trim_around hblanks hcode (by simp [hwordFull]) blanks_nil
      have hlabeled : ReadsAs source (some (String.ofList name.toList)) (some (.bytes bytes)) := by
        refine readsAs_of_label hname ?_ ?_ (htrim ▸ hstatement)
        · have hline := (plain_of_isName hname).solid.trimmed.around hnameFull (':' :: blanks)
            hcode (by simp [hwordFull])
          rw [hsource]
          simpa using trim_around hlead hline (by simp [hnameFull]) hafter
        · obtain ⟨c, rest, rfl⟩ := List.exists_cons_of_ne_nil hblanksFull
          simp [hblanks c List.mem_cons_self]
      rwa [String.ofList_toList] at hlabeled

/-- A line that stores bytes under a label. -/
theorem readsAs_bytes {name : String} {tail : List Char} {bytes : Bytes}
    (hname : isName name.toList = true) (htrimmed : Text.Trimmed tail) (hnonempty : tail ≠ [])
    (hcomment : dropComment none tail = tail) (hread : readBytes tail = pure bytes) :
    ReadsAs (name.toList ++ ": db ".toList ++ tail) (some name) (some (.bytes bytes)) := by
  have hspace : Blanks [' '] := by simp [Blanks, Text.isBlank]
  have hmiddle : Unquoted ": db ".toList := by decide
  have hfront := (plain_of_isName hname).solid.unquoted.append hmiddle
  refine readsAs_data blanks_nil (.present hname hspace (List.cons_ne_nil _ _))
    List.mem_cons_self hspace (List.cons_ne_nil _ _) htrimmed hnonempty blanks_nil ?_ hread
  rw [dropComment_append hfront, hcomment]
  simp

/-- A line that stores bytes is read without a remark as its label and the bytes of its items one
after another, with a zero byte behind them exactly if an item is a string. -/
theorem read_dataLine {label : Option String} {items : List DataItem} {source : List Char}
    (h : DataLine label items source) (number : Nat) :
    Line.read number source =
      .ok (⟨number, String.ofList source, label, some (.bytes (storedBytes items))⟩, []) := by
  obtain @⟨lead, front, word, gap, body, comment, hlead, hfront, hword, hgap, hapart, hbody,
    hcomment⟩ := h
  have hempty : dropComment none comment = [] := by
    rcases hcomment with rfl | ⟨text, rfl⟩ <;> simp [dropComment]
  have hdropped : dropComment none (lead ++ (front ++ (word ++ (gap ++ (body ++ comment))))) =
      lead ++ (front ++ (word ++ (gap ++ body))) := by
    rw [(mild_of_blanks hlead).passed.comment, hfront.mild.passed.comment,
      (plain_dataWord hword).mild.passed.comment, (mild_of_blanks hgap).passed.comment,
      hbody.comment, hempty, List.append_nil]
  -- the blanks in front of the first item belong to the gap
  obtain ⟨before, tight, after, rfl, hbefore, hafter, htight, htrimmed, hfull⟩ :=
    hbody.exists_tight
  refine readsAs_data hlead hfront hword (hgap.append hbefore) (by simp [hapart]) htrimmed hfull
    hafter ?_ (readBytes_items htight htrimmed hfull) number
  rw [hdropped, List.append_assoc]

/-- Quotes of the other kind, commas, brackets and the mark of a comment inside strings, blanks of
several kinds around items, and numbers of three forms. -/
theorem read_dataLine_mixed :
    DataLine (some "x") [.string "it\"s; [,", .string " 'é' ", .number 127, .number (-128),
      .number 10] " x: dB\t'it\"s; [,' ,\" 'é' \", 0x7F,-128\t, 1_0 ;'c".toList ∧
    Line.read 3 " x: dB\t'it\"s; [,' ,\" 'é' \", 0x7F,-128\t, 1_0 ;'c".toList =
      .ok (⟨3, " x: dB\t'it\"s; [,' ,\" 'é' \", 0x7F,-128\t, 1_0 ;'c", some "x",
        some (.bytes [105, 116, 34, 115, 59, 32, 91, 44, 32, 39, 195, 169, 39, 32, 127, 128, 10,
          0])⟩, []) := by
  have hspace : Blanks [' '] := by simp [Blanks, Text.isBlank]
  have htab : Blanks ['\t'] := by simp [Blanks, Text.isBlank]
  have hhex : Literal ['0', 'x', '7', 'F'] 127 :=
    @Literal.marked 'x' 16 _ _ (by decide) ((Text.natural?_eq_some_iff (by decide)).mp rfl)
  have hdecimal : Literal ['1', '2', '8'] 128 :=
    .decimal (by decide) ((Text.natural?_eq_some_iff (by decide)).mp rfl)
  have hunderscore : Literal ['1', '_', '0'] 10 :=
    .decimal (by decide) ((Text.natural?_eq_some_iff (by decide)).mp rfl)
  have hsingle : (DataItem.string "it\"s; [,").Spelled ('\'' :: ("it\"s; [,".toList ++ ['\''])) :=
    .string (.inl rfl) (by decide)
  have hdouble : (DataItem.string " 'é' ").Spelled ('"' :: (" 'é' ".toList ++ ['"'])) :=
    .string (.inr rfl) (by decide)
  have hbody := ItemsText.more blanks_nil hsingle hspace (.more blanks_nil hdouble blanks_nil
    (.more hspace (.natural hhex (by decide)) blanks_nil
      (.more blanks_nil (.negative hdecimal (by decide)) htab
        (.last hspace (.natural hunderscore (by decide)) hspace))))
  have hword : IsDataWord ['d', 'B'] := by simp [IsDataWord]
  have hname : isName "x".toList = true := by decide
  have hline := DataLine.line hspace (.present hname hspace (by simp)) hword htab (by simp) hbody
    (.inr ⟨"'c".toList, rfl⟩)
  exact ⟨hline, (read_dataLine hline 3).trans rfl⟩

end Ia32.Asm
