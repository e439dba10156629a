import MessagePack.Json.Read
import MessagePack.Proofs.Canonical
import MessagePack.Proofs.Rendering

/-!
Texts between quotes. A text is rendered as a literal of JSON that stands for this text and for no
other, without a control character in it; so nodes that are rendered alike hold the same text.
-/

namespace MessagePack

/-! Digits to the base 16. -/

theorem forall_hexDigit (holds : Char → Nat → Prop)
    (hdigits : ∀ d : Fin 16, holds (Nat.digitChar d) d) (n : Nat) :
    holds (hexDigit n) (n % 16) :=
  hdigits ⟨n % 16, Nat.mod_lt n (by decide)⟩

theorem hexValue_hexDigit (n : Nat) : Json.hexValue? (hexDigit n) = some (n % 16) :=
  forall_hexDigit (fun c value => Json.hexValue? c = some value) (by decide) n

/-- With one digit more, the last digit stands behind the others. -/
theorem toList_hex_succ {width : Nat} (hwidth : 0 < width) (n : Nat) :
    (hex (width + 1) n).toList = (hex width (n / 16)).toList ++ [hexDigit n] := by
  simp only [hex, String.toList_ofList]
  rcases Nat.lt_or_ge n 16 with hsmall | hlarge
  · have hzero : n / 16 = 0 := Nat.div_eq_of_lt hsmall
    rw [Nat.toDigits_of_lt_base hsmall, hzero, Nat.toDigits_of_lt_base (by decide)]
    obtain ⟨width, rfl⟩ := Nat.exists_eq_add_one.mpr hwidth
    simp only [List.length_singleton, Nat.add_sub_cancel, List.replicate_succ', hexDigit,
      Nat.mod_eq_of_lt hsmall]
    rfl
  · rw [Nat.toDigits_of_base_le (by decide) hlarge, List.length_append, List.length_singleton,
      Nat.add_sub_add_right, List.append_assoc]
    rfl

theorem toList_hex_one {n : Nat} (hn : n < 16) : (hex 1 n).toList = [hexDigit n] := by
  simp only [hex, String.toList_ofList, Nat.toDigits_of_lt_base hn, hexDigit,
    Nat.mod_eq_of_lt hn]
  rfl

theorem toList_hex_four {n : Nat} (hn : n < UInt16.size) :
    (hex 4 n).toList =
      [hexDigit (n / 16 / 16 / 16), hexDigit (n / 16 / 16), hexDigit (n / 16), hexDigit n] := by
  have hfirst : n / 16 / 16 / 16 < 16 := by
    have hsize : UInt16.size = 65536 := rfl
    omega
  rw [toList_hex_succ (by decide), toList_hex_succ (by decide), toList_hex_succ (by decide),
    toList_hex_one hfirst]
  rfl

theorem hexNumber_hex {n : Nat} (hn : n < UInt16.size) :
    Json.hexNumber? (hex 4 n).toList = some n := by
  have hsize : UInt16.size = 65536 := rfl
  rw [toList_hex_four hn]
  simp only [Json.hexNumber?, List.foldlM_cons, List.foldlM_nil, hexValue_hexDigit,
    Option.map_some, Option.bind_eq_bind, Option.bind_some, Option.pure_def, Option.some.injEq]
  omega

namespace Json

/-! Literals. -/

/-- The letters behind a backslash and what they stand for. -/
def shortEscapes : List (Char × Char) :=
  [('"', '"'), ('\\', '\\'), ('/', '/'), ('b', '\x08'), ('f', '\x0c'), ('n', '\n'), ('r', '\r'),
    ('t', '\t')]

/-- What may stand between quotes for one character. -/
inductive Denotes : List Char → Char → Prop
  | plain {c : Char} (hquote : c ≠ '"') (hslash : c ≠ '\\') (hcontrol : 0x20 ≤ c.toNat) :
      Denotes [c] c
  | short {letter c : Char} (hletter : (letter, c) ∈ shortEscapes) : Denotes ['\\', letter] c
  | unit {digits : List Char} {n : Nat} (hlength : digits.length = 4)
      (hdigits : hexNumber? digits = some n) (hvalid : n.isValidChar) :
      Denotes ('\\' :: 'u' :: digits) (Char.ofNat n)
  | pair {first second : List Char} {high low : Nat}
      (hlength : first.length = 4) (hfirst : hexNumber? first = some high)
      (hhigh : 0xd800 ≤ high ∧ high < 0xdc00)
      (hlengths : second.length = 4) (hsecond : hexNumber? second = some low)
      (hlow : 0xdc00 ≤ low ∧ low < 0xe000) :
      Denotes ('\\' :: 'u' :: first ++ '\\' :: 'u' :: second)
        (Char.ofNat (0x10000 + (high - 0xd800) * 0x400 + (low - 0xdc00)))

/-- What may stand between quotes for a text, character by character. -/
inductive Spells : List Char → List Char → Prop
  | nil : Spells [] []
  | cons {piece body text : List Char} {c : Char} (hpiece : Denotes piece c)
      (hbody : Spells body text) : Spells (piece ++ body) (c :: text)

variable {done piece body text rest : List Char} {c : Char}

theorem exists_of_length_four {α : Type} {list : List α} (hlength : list.length = 4) :
    ∃ a b c d, list = [a, b, c, d] := by
  match list, hlength with
  | [a, b, c, d], _ => exact ⟨a, b, c, d, rfl⟩

theorem not_surrogate_of_valid {n : Nat} (hvalid : n.isValidChar) :
    isLowSurrogate n = false ∧ isHighSurrogate n = false := by
  simp only [Nat.isValidChar] at hvalid
  simp only [isLowSurrogate, isHighSurrogate, Bool.and_eq_false_iff, decide_eq_false_iff_not]
  omega

theorem surrogate_of_range {high low : Nat} (hhigh : 0xd800 ≤ high ∧ high < 0xdc00)
    (hlow : 0xdc00 ≤ low ∧ low < 0xe000) :
    isLowSurrogate high = false ∧ isHighSurrogate high = true ∧ isLowSurrogate low = true := by
  simp only [isLowSurrogate, isHighSurrogate, Bool.and_eq_false_iff, Bool.and_eq_true,
    decide_eq_false_iff_not, decide_eq_true_eq]
  omega

theorem Denotes.read (hpiece : Denotes piece c) (done rest : List Char) :
    readQuoted done (piece ++ rest) = readQuoted (c :: done) rest := by
  cases hpiece with
  | plain hquote hslash hcontrol =>
      have hshown : ¬(c.toNat < 0x20 ∨ c = '\\') := by
        rintro (hless | hsame)
        · omega
        · exact hslash hsame
      rw [List.singleton_append, readQuoted, if_neg hshown]
      · exact hquote
      · exact fun _ _ _ _ _ hsame _ => hslash hsame
      · exact fun _ _ hsame _ => hslash hsame
  | short hletter =>
      simp only [shortEscapes, List.mem_cons, Prod.mk.injEq, List.not_mem_nil, or_false] at hletter
      rcases hletter with ⟨rfl, rfl⟩ | ⟨rfl, rfl⟩ | ⟨rfl, rfl⟩ | ⟨rfl, rfl⟩ | ⟨rfl, rfl⟩ |
        ⟨rfl, rfl⟩ | ⟨rfl, rfl⟩ | ⟨rfl, rfl⟩
      all_goals
        rw [List.cons_append, List.singleton_append, readQuoted]
        · rfl
        · simp
  | unit hlength hdigits hvalid =>
      obtain ⟨first, second, third, fourth, rfl⟩ := exists_of_length_four hlength
      obtain ⟨hlow, hhigh⟩ := not_surrogate_of_valid hvalid
      simp only [List.cons_append, List.nil_append]
      rw [readQuoted, hdigits]
      simp only [hlow, hhigh, Bool.false_eq_true, if_false]
  | pair hlength hfirst hhigh hlengths hsecond hlow =>
      obtain ⟨first, second, third, fourth, rfl⟩ := exists_of_length_four hlength
      obtain ⟨fifth, sixth, seventh, eighth, rfl⟩ := exists_of_length_four hlengths
      obtain ⟨hnotLow, hisHigh, hisLow⟩ := surrogate_of_range hhigh hlow
      simp only [List.cons_append, List.nil_append]
      rw [readQuoted, hfirst]
      simp only [hnotLow, hisHigh, Bool.false_eq_true, if_false, if_true, hsecond,
        Option.filter_some, hisLow]
      rfl

/-- A reader stops at the first quote that is not behind a backslash. -/
theorem Spells.read (hbody : Spells body text) (done rest : List Char) :
    readQuoted done (body ++ '"' :: rest) = some (String.ofList (done.reverse ++ text), rest) := by
  induction hbody generalizing done with
  | nil => rw [List.nil_append, readQuoted, List.append_nil]
  | cons hpiece _ ih =>
      rw [List.append_assoc, hpiece.read, ih, List.reverse_cons, List.append_assoc]
      rfl

theorem Spells.unique {other : List Char} (hbody : Spells body text) (hother : Spells body other) :
    text = other := by
  have hread := (hbody.read [] []).symm.trans (hother.read [] [])
  have hsame : String.ofList text = String.ofList other := congrArg Prod.fst (Option.some.inj hread)
  exact String.ofList_injective hsame

/-- A literal is a document of its own. -/
theorem Spells.document (hbody : Spells body text) :
    ofText? (String.ofList ('"' :: (body ++ ['"']))) = some (.string (String.ofList text)) := by
  have hread : readQuoted [] (body ++ ['"']) = some (String.ofList text, []) := hbody.read [] []
  have htokens : Token.ofText? (String.ofList ('"' :: (body ++ ['"']))) =
      some [.scalar (.string (String.ofList text))] := by
    have hblank : Token.isBlank '"' = false := by decide
    have hmark : Token.ofMark? '"' = none := by decide
    rw [Token.ofText?, String.toList_ofList, Token.tokens?]
    simp only [hblank, hmark, Bool.false_eq_true, if_false, if_true]
    split
    · next content after hfound =>
        cases hread.symm.trans hfound
        rw [Token.tokens?]
        rfl
    · next hnone => cases hread.symm.trans hnone
  rw [ofText?, htokens]
  rfl

end Json

namespace Tree

variable {c : Char}

theorem lt_of_isControl (hcontrol : isControl c = true) : c.toNat < 0xa0 := by
  simp only [isControl, Bool.or_eq_true, Bool.and_eq_true, decide_eq_true_eq] at hcontrol
  omega

theorem denotes_escape (c : Char) : Json.Denotes (escape c) c := by
  unfold escape
  split_ifs with hquote hslash hnewline hreturn htab hcontrol
  · exact .short (by rw [hquote]; decide)
  · exact .short (by rw [hslash]; decide)
  · exact .short (by rw [hnewline]; decide)
  · exact .short (by rw [hreturn]; decide)
  · exact .short (by rw [htab]; decide)
  · have hless := lt_of_isControl hcontrol
    have hword : c.toNat < UInt16.size := Nat.lt_trans hless (by decide)
    have hunit : Json.Denotes ('\\' :: 'u' :: (hex 4 c.toNat).toList) (Char.ofNat c.toNat) := by
      refine .unit ?_ (hexNumber_hex hword) (.inl (Nat.lt_trans hless (by decide)))
      rw [toList_hex_four hword]
      rfl
    rwa [Char.ofNat_toNat] at hunit
  · refine .plain hquote hslash ?_
    simp only [isControl, Bool.or_eq_true, Bool.and_eq_true, decide_eq_true_eq] at hcontrol
    omega

theorem visible_hexDigit (n : Nat) : isControl (hexDigit n) = false :=
  forall_hexDigit (fun c _ => isControl c = false) (by decide) n

theorem visible_short {letter : Char} (hletter : isControl letter = false) :
    ∀ shown ∈ ['\\', letter], isControl shown = false := by
  intro shown hshown
  simp only [List.mem_cons, List.not_mem_nil, or_false] at hshown
  rcases hshown with rfl | rfl
  · decide
  · exact hletter

theorem visible_escape (c : Char) : ∀ shown ∈ escape c, isControl shown = false := by
  unfold escape
  split_ifs with hquote hslash hnewline hreturn htab hcontrol
  · exact visible_short (by decide)
  · exact visible_short (by decide)
  · exact visible_short (by decide)
  · exact visible_short (by decide)
  · exact visible_short (by decide)
  · have hword : c.toNat < UInt16.size := Nat.lt_trans (lt_of_isControl hcontrol) (by decide)
    rw [toList_hex_four hword]
    intro shown hshown
    simp only [List.mem_cons, List.not_mem_nil, or_false] at hshown
    rcases hshown with rfl | rfl | rfl | rfl | rfl | rfl
    · decide
    · decide
    all_goals exact visible_hexDigit _
  · intro shown hshown
    rw [List.mem_singleton.mp hshown]
    exact Bool.eq_false_iff.mpr hcontrol

theorem spells_escape (text : List Char) : Json.Spells (text.flatMap escape) text := by
  induction text with
  | nil => exact .nil
  | cons c text ih =>
      rw [List.flatMap_cons]
      exact .cons (denotes_escape c) ih

theorem toList_quote (text : String) :
    (quote text).toList = '"' :: (text.toList.flatMap escape ++ ['"']) :=
  String.toList_ofList

theorem quote_eq_iff {text other : String} : quote text = quote other ↔ text = other := by
  refine ⟨fun hsame => ?_, fun hsame => by rw [hsame]⟩
  have hchars := congrArg String.toList hsame
  rw [toList_quote, toList_quote] at hchars
  have hbody : text.toList.flatMap escape = other.toList.flatMap escape :=
    List.append_cancel_right (List.cons.inj hchars).2
  apply String.toList_inj.mp
  apply (spells_escape text.toList).unique
  rw [hbody]
  exact spells_escape other.toList

/-! Nodes. -/

/-- A str that holds these bytes, and they are text. -/
structure HoldsText (tree : Tree) (id : NodeId) (payload : Bytes) : Prop where
  str : ∃ length, tree.tagAt id = .str length
  held : tree.payload? id = some payload
  valid : ∃ text, ofUtf8? payload = some text

variable {tree : Tree} {id : NodeId} {payload : Bytes} {text : String}

theorem HoldsText.render (hholds : tree.HoldsText id payload) (htext : ofUtf8? payload = some text)
    (layout : Layout) : tree.render layout id = quote text := by
  obtain ⟨length, htag⟩ := hholds.str
  have hscalar : contents? layout tree id 0 = none := by rw [contents?, htag]
  have hbound : 1 ≤ tree.pieceBound := by
    rw [pieceBound]
    omega
  calc tree.render layout id
      = scalarText (tree.tagAt id) ((tree.payload? id).getD []) :=
        (Writes.scalar hscalar).run hbound
    _ = quote text := by rw [htag, hholds.held, scalarText, Option.getD_some, htext]

theorem holdsText_of_parseWithin {config : Config} {maxDepth : Nat} {header : Bytes}
    {length : UInt32}
    (hparse : parseWithin config maxDepth (Message.node header (.str length) payload []).bytes =
      .ok tree)
    (hcomplete : (Message.node header (.str length) payload []).Complete config.tagOptions)
    (htext : ofUtf8? payload = some text) : tree.HoldsText tree.root payload := by
  obtain ⟨whole, hwhole, hbytes, hshows, -⟩ := shows_of_parseWithin hparse
  obtain ⟨rfl, -⟩ := hwhole.unique hcomplete (congrArg (· ++ []) hbytes)
  cases hshows with
  | node htag hpayload _ _ => exact ⟨⟨length, htag⟩, hpayload, ⟨text, htext⟩⟩

/-- A text between quotes is all of a literal of JSON, which shows no control character, stands
for this text only and is read as it; and nodes that hold texts are rendered alike if they hold the
same bytes, and only then. -/
theorem quote_lossless :
    (∀ text : String, ∃ body, (quote text).toList = '"' :: (body ++ ['"']) ∧
      (∀ c ∈ body, isControl c = false) ∧
      (∀ content, Json.Spells body content ↔ content = text.toList) ∧
      (∀ rest, Json.readQuoted [] (body ++ '"' :: rest) = some (text, rest)) ∧
      Json.ofText? (quote text) = some (.string text)) ∧
    ∀ {tree other : Tree} {id place : NodeId} {payload content : Bytes} {layout style : Layout},
      tree.HoldsText id payload → other.HoldsText place content →
        (tree.render layout id = other.render style place ↔ payload = content) := by
  refine ⟨fun text => ⟨text.toList.flatMap escape, toList_quote text, ?_, ?_, ?_, ?_⟩, ?_⟩
  · intro c hc
    obtain ⟨written, -, hshown⟩ := List.mem_flatMap.mp hc
    exact visible_escape written c hshown
  · intro content
    refine ⟨fun hspells => hspells.unique (spells_escape text.toList), ?_⟩
    rintro rfl
    exact spells_escape text.toList
  · intro rest
    rw [(spells_escape text.toList).read, List.reverse_nil, List.nil_append, String.ofList_toList]
  · have hdocument := (spells_escape text.toList).document
    rw [String.ofList_toList] at hdocument
    exact hdocument
  · intro tree other id place payload content layout style hholds hother
    obtain ⟨text, htext⟩ := hholds.valid
    obtain ⟨said, hsaid⟩ := hother.valid
    rw [hholds.render htext, hother.render hsaid, quote_eq_iff]
    constructor
    · rintro rfl
      rw [← utf8_of_ofUtf8 htext, ← utf8_of_ofUtf8 hsaid]
    · rintro rfl
      exact Option.some.inj (htext.symm.trans hsaid)

/-- A line feed is not rendered as a backslash and a letter are. -/
theorem quote_lossless_newline :
    ∃ tree other : Tree, parseWithin {} 1 [0xa1, 0x0a] = .ok tree ∧
      parseWithin {} 1 [0xa2, 0x5c, 0x6e] = .ok other ∧
      tree.HoldsText tree.root [0x0a] ∧ other.HoldsText other.root [0x5c, 0x6e] ∧
      tree.render .compact tree.root ≠ other.render .compact other.root := by
  have hvalid : Config.Valid {} := by decide
  have hfeed : (Message.node [0xa1] (.str 1) [0x0a] []).Complete {} :=
    .node rfl rfl rfl fun _ hnone => by cases hnone
  have hletters : (Message.node [0xa2] (.str 2) [0x5c, 0x6e] []).Complete {} :=
    .node rfl rfl rfl fun _ hnone => by cases hnone
  obtain ⟨tree, hparse, -⟩ :=
    parseWithin_ok hvalid rfl (by decide) hfeed (show 0 ≤ 1 by decide) (by decide) (by decide)
  obtain ⟨other, hother, -⟩ :=
    parseWithin_ok hvalid rfl (by decide) hletters (show 0 ≤ 1 by decide) (by decide) (by decide)
  have hholds : tree.HoldsText tree.root [0x0a] :=
    holdsText_of_parseWithin hparse hfeed (show _ = some "\n" by rfl)
  have hcontent : other.HoldsText other.root [0x5c, 0x6e] :=
    holdsText_of_parseWithin hother hletters (show _ = some "\\n" by rfl)
  refine ⟨tree, other, hparse, hother, hholds, hcontent, fun hsame => ?_⟩
  have hbytes := (quote_lossless.2 hholds hcontent).mp hsame
  exact absurd hbytes (by decide)

end Tree
end MessagePack
