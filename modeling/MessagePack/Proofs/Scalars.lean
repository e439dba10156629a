import MessagePack.Proofs.Confined
import MessagePack.Proofs.Cursor
import MessagePack.Proofs.Faithful
import MessagePack.Proofs.Table

/-!
Typed reads of a reader and of a tree. Each has its own reads, and they come to the same outcome for
the same tag. An integer is judged by its value alone, whatever header it has.
-/

namespace MessagePack

/-- The headers of an integer: a leading byte that holds it, or one that announces a word, signed or
not, that is wide enough. -/
inductive Header.Spells : Int → Bytes → Prop
  | positive (value : Fin 128) : Spells value [UInt8.ofNat value]
  | negative (value : Fin 32) : Spells (value - 32) [UInt8.ofNat (0xe0 + value)]
  | unsigned {marker : UInt8} {width n : Nat}
      (hrow : (marker, width) ∈ [((0xcc : UInt8), 1), (0xcd, 2), (0xce, 4), (0xcf, 8)])
      (hholds : n < 256 ^ width) :
      Spells n (marker :: bigEndian width n)
  | signed {marker : UInt8} {width : Nat} {value : Int}
      (hrow : (marker, width) ∈ [((0xd0 : UInt8), 1), (0xd1, 2), (0xd2, 4), (0xd3, 8)])
      (hleast : -(256 ^ width : Nat) ≤ value * 2) (hgreatest : value * 2 < (256 ^ width : Nat)) :
      Spells value (marker :: bigEndian width (value % (256 ^ width : Nat)).toNat)

/-- What both readers and nodes are asked for. -/
inductive Scalar where
  | nil
  | bool
  | unsigned (bits : Nat)
  | signed (bits : Nat)
  | single
  | double
  | exactSingle
  | exactDouble
  | singleBits
  | doubleBits

namespace Scalar

def call : Scalar → Reader.Call
  | nil => .expectNil
  | bool => .expectBool
  | unsigned bits => .expectUnsigned bits
  | signed bits => .expectSigned bits
  | single => .expectSingle
  | double => .expectDouble
  | exactSingle => .expectExactSingle
  | exactDouble => .expectExactDouble
  | singleBits => .expectSingleBits
  | doubleBits => .expectDoubleBits

def query : Scalar → Tree.Query
  | nil => .nil
  | bool => .bool
  | unsigned bits => .unsigned bits
  | signed bits => .signed bits
  | single => .single
  | double => .double
  | exactSingle => .exactSingle
  | exactDouble => .exactDouble
  | singleBits => .singleBits
  | doubleBits => .doubleBits

end Scalar

/-- The same value, or the same error. -/
inductive Concur : Except Error Reader.Reply → Except Error Tree.Answer → Prop
  | done : Concur (.ok .done) (.ok .done)
  | bool (value : Bool) : Concur (.ok (.bool value)) (.ok (.bool value))
  | integer (value : Int) : Concur (.ok (.integer value)) (.ok (.integer value))
  | single (bits : UInt32) : Concur (.ok (.single bits)) (.ok (.single bits))
  | double (bits : UInt64) : Concur (.ok (.double bits)) (.ok (.double bits))
  | singleBits (bits : UInt32) : Concur (.ok (.singleBits bits)) (.ok (.singleBits bits))
  | doubleBits (bits : UInt64) : Concur (.ok (.doubleBits bits)) (.ok (.doubleBits bits))
  | error (error : Error) : Concur (.error error) (.error error)

/-- The calls that ask for an integer, with the kind that they expect and their bounds. -/
inductive Reader.Call.Asks : Reader.Call → Kind → Int → Int → Prop
  | unsigned {bits : Nat} (hbits : bits ≤ 64) :
      Asks (.expectUnsigned bits) .uint 0 ((2 ^ bits : Nat) - 1)
  | signed {bits : Nat} (hbits : bits ≤ 64) :
      Asks (.expectSigned bits) .int (-(2 ^ (bits - 1) : Nat)) ((2 ^ (bits - 1) : Nat) - 1)
  | unsignedIn (least greatest : UInt64) :
      Asks (.expectUnsignedIn least greatest) .uint least.toNat greatest.toNat
  | signedIn (least greatest : Int64) :
      Asks (.expectSignedIn least greatest) .int least.toInt greatest.toInt

/-- The outcome is the integer that the bytes start with, if it is within the bounds. -/
structure Judged (options : TagOptions) (bytes : Bytes) (expected : Kind) (least greatest : Int)
    (integer : Int → α) (outcome : Except Error α) : Prop where
  fits : ∀ value header rest, Header.Spells value header → bytes = header ++ rest →
    least ≤ value → value ≤ greatest → outcome = .ok (integer value)
  outside : ∀ value header rest, Header.Spells value header → bytes = header ++ rest →
    ¬(least ≤ value ∧ value ≤ greatest) → outcome = .error (.invalid .outOfRange)
  other : ∀ tag n, Header.decode options bytes = .ok (tag, n) → tag.kind ≠ .int →
    tag.kind ≠ .uint → outcome = .error (.invalid (.typeMismatch expected tag.kind))

variable {options : TagOptions} {bytes : Bytes} {tag : Tag} {expected : Kind}
  {least greatest value : Int}

/-! The tag of an integer has its value. -/

theorem Header.decode_form (form : Form) (hreserved : form ≠ .reserved)
    (hlegacy : form.inLegacy = true) (hext : form.isExt = false) {body : Bytes}
    (hbody : body.length = form.bodyLength) :
    decode options (form.marker :: body) =
      .ok (Header.tag options.float body form, (form.marker :: body).length) := by
  have haccepted : refusal? options form = none := accepted_plain hreserved hlegacy hext
  have hdecode := decode_marker form body [] hbody haccepted
  rwa [List.append_nil] at hdecode

theorem Header.Spells.decode (options : TagOptions) {header : Bytes}
    (hspells : Spells value header) :
    ∃ tag, Header.decode options header = .ok (tag, header.length) ∧
      tag.integer? = some value := by
  cases hspells with
  | positive value =>
      have htag : ∀ value : Fin 128, (Tag.uint (UInt64.ofNat value)).integer? = some value := by
        decide
      exact ⟨_, decode_form (.positiveFix value) (by simp) rfl rfl rfl, htag value⟩
  | negative value =>
      have htag : ∀ value : Fin 32, (Tag.int (Int64.ofInt (value - 32))).integer? =
          some ((value : Int) - 32) := by
        decide
      exact ⟨_, decode_form (.negativeFix value) (by simp) rfl rfl rfl, htag value⟩
  | @unsigned marker width n hrow hholds =>
      obtain ⟨k, rfl, rfl⟩ :=
        (Table.mem_rows Form.uint (fun k => Form.wordLength k) (by rfl)).mp hrow
      have hlength := length_bigEndian (Form.wordLength k) n
      refine ⟨_, decode_form (.uint k) (by simp) rfl rfl hlength, ?_⟩
      simp only [Header.tag, Tag.integer?]
      rw [(toNat_ofBigEndian_wide hlength).1, ofBigEndian_of_lt hholds]
  | @signed marker width _ hrow hleast hgreatest =>
      obtain ⟨k, rfl, rfl⟩ :=
        (Table.mem_rows Form.int (fun k => Form.wordLength k) (by rfl)).mp hrow
      have hlength := length_bigEndian (Form.wordLength k)
        (value % (256 ^ Form.wordLength k : Nat)).toNat
      have hpos : (0 : Int) < (256 ^ Form.wordLength k : Nat) := by
        exact_mod_cast Nat.pow_pos (by decide)
      refine ⟨_, decode_form (.int k) (by simp) rfl rfl hlength, ?_⟩
      simp only [Header.tag, Tag.integer?]
      rw [(toInt_signedOfBigEndian hlength).1, signedOfBigEndian_bigEndian,
        Int.toNat_of_nonneg (Int.emod_nonneg _ hpos.ne'), Nat.pow_eq, Int.emod_bmod,
        Int.bmod_eq_of_le_mul_two hleast hgreatest]

theorem Tag.integer?_eq_none (hint : tag.kind ≠ .int) (huint : tag.kind ≠ .uint) :
    tag.integer? = none := by
  cases tag <;> first | rfl | exact absurd rfl hint | exact absurd rfl huint

theorem exists_unsigned (hleast : 0 ≤ value) (hgreatest : value < UInt64.size) :
    ∃ word : UInt64, (word.toNat : Int) = value := by
  obtain ⟨n, rfl⟩ := Int.eq_ofNat_of_zero_le hleast
  exact ⟨UInt64.ofNat n, by rw [UInt64.toNat_ofNat_of_lt' (Int.ofNat_lt.mp hgreatest)]⟩

theorem exists_signed (hleast : -0x8000000000000000 ≤ value)
    (hgreatest : value < 0x8000000000000000) :
    ∃ word : Int64, word.toInt = value :=
  ⟨Int64.ofInt value, Int64.toInt_ofInt_of_le hleast hgreatest⟩

section Word

variable {ω : Type} {word? : Option ω} {toInt : ω → Int} {accepts : ω → Bool}

/-- The word that a tag gives, which must be that of an integer. -/
def Tag.word (expected : Kind) (tag : Tag) (word? : Option ω) : Except Error ω :=
  if tag.integer?.isNone then
    tag.mismatch expected
  else
    word?.elim (.error (.invalid .outOfRange)) .ok

/-- The word, if it is accepted. -/
def ranged (accepts : ω → Bool) (word : ω) : Except Error ω :=
  if accepts word then .ok word else .error (.invalid .outOfRange)

theorem Tag.word_of_some (hinteger : tag.integer? = some value) {word : ω}
    (hword : word? = some word) : tag.word expected word? = .ok word := by
  rw [Tag.word, hinteger, hword]
  rfl

theorem Tag.word_of_none (hinteger : tag.integer? = some value) (hnone : word? = none) :
    tag.word expected word? = .error (.invalid .outOfRange) := by
  rw [Tag.word, hinteger, hnone]
  rfl

theorem Tag.word_of_other (hnone : tag.integer? = none) :
    tag.word expected word? = tag.mismatch expected := by
  rw [Tag.word, hnone]
  rfl

end Word

namespace Judged

/-- A word goes by the value alone if it has it and if the bounds are those of the words that are
accepted. -/
theorem of_word {n : Nat} {ω : Type} {word? : Option ω} {accepts : ω → Bool} {toInt : ω → Int}
    (hdecode : Header.decode options bytes = .ok (tag, n))
    (hword : ∀ word, word? = some word ↔ tag.integer? = some (toInt word))
    (haccepts : ∀ word, accepts word = true ↔ least ≤ toInt word ∧ toInt word ≤ greatest)
    (hholds : ∀ value, least ≤ value → value ≤ greatest → ∃ word, toInt word = value)
    (integer : Int → α) :
    Judged options bytes expected least greatest integer
      ((tag.word expected word? >>= ranged accepts).map fun word => integer (toInt word)) := by
  have hvalue : ∀ {value : Int} {header rest : Bytes}, Header.Spells value header →
      bytes = header ++ rest → tag.integer? = some value := by
    intro value header rest hspells hbytes
    obtain ⟨found, hheader, hfound⟩ := hspells.decode options
    rw [hbytes, Header.decode_append hheader] at hdecode
    cases hdecode
    exact hfound
  constructor
  · intro value header rest hspells hbytes hleast hgreatest
    obtain ⟨word, rfl⟩ := hholds value hleast hgreatest
    have hinteger := hvalue hspells hbytes
    have hfits : ranged accepts word = .ok word :=
      if_pos ((haccepts word).mpr ⟨hleast, hgreatest⟩)
    rw [Tag.word_of_some hinteger ((hword word).mpr hinteger)]
    exact congrArg (Except.map _) hfits
  · intro value header rest hspells hbytes houtside
    have hinteger := hvalue hspells hbytes
    cases hsome : word? with
    | none =>
        rw [Tag.word_of_none hinteger rfl]
        rfl
    | some word =>
        obtain rfl := Option.some.inj (hinteger.symm.trans ((hword word).mp hsome))
        have hrefused : ranged accepts word = .error (.invalid .outOfRange) :=
          if_neg fun hfits => houtside ((haccepts word).mp hfits)
        rw [Tag.word_of_some hinteger rfl]
        exact congrArg (Except.map _) hrefused
  · intro found n hfound hint huint
    cases hdecode.symm.trans hfound
    rw [Tag.word_of_other (Tag.integer?_eq_none hint huint)]
    rfl

/-- Where no header can be read, there is nothing to judge. -/
theorem of_error {error : Error} (hdecode : Header.decode options bytes = .error error)
    (integer : Int → α) (outcome : Except Error α) :
    Judged options bytes expected least greatest integer outcome := by
  have hnone : ∀ {value : Int} {header rest : Bytes}, Header.Spells value header →
      bytes ≠ header ++ rest := by
    intro value header rest hspells hbytes
    obtain ⟨found, hheader, -⟩ := hspells.decode options
    rw [hbytes, Header.decode_append hheader] at hdecode
    cases hdecode
  refine ⟨fun _ _ _ hspells hbytes => absurd hbytes (hnone hspells),
    fun _ _ _ hspells hbytes => absurd hbytes (hnone hspells), fun _ _ hfound => ?_⟩
  cases hdecode.symm.trans hfound

/-- What is judged of a reply is judged of an answer that concurs with it. -/
theorem concur {reply : Except Error Reader.Reply} {answer : Except Error Tree.Answer}
    (hjudged : Judged options bytes expected least greatest Reader.Reply.integer reply)
    (hconcur : Concur reply answer) :
    Judged options bytes expected least greatest Tree.Answer.integer answer where
  fits := by
    intro value header rest hspells hbytes hleast hgreatest
    cases hjudged.fits value header rest hspells hbytes hleast hgreatest
    cases hconcur
    rfl
  outside := by
    intro value header rest hspells hbytes houtside
    cases hjudged.outside value header rest hspells hbytes houtside
    cases hconcur
    rfl
  other := by
    intro tag n hdecode hint huint
    cases hjudged.other tag n hdecode hint huint
    cases hconcur
    rfl

end Judged

variable {config : Config} {source : Source}

/-! The reader's side. -/

namespace Reader

theorem perform_created (hvalid : config.Valid) (hreader : config.reader = true)
    (hsteady : source.Steady) :
    ∃ reader, create config source = .ok reader ∧ ∀ call,
      (perform call reader).1 = (State.perform call (State.ofBytes config source.content)).1 := by
  obtain ⟨state, hcreate, halike⟩ := create_alike hvalid hreader hsteady
  refine ⟨_, hcreate, fun call => ?_⟩
  have hagrees := perform_agrees Buffered.simulates call { state }
    { state := .ofBytes config source.content } ⟨halike, rfl⟩
  rw [hagrees.1, perform, Latch.call_result]

namespace State

theorem readTag_ofBytes {header : Bytes} (hvalid : config.Valid)
    (hdecode : Header.decode config.tagOptions header = .ok (tag, header.length)) (rest : Bytes) :
    ∃ after, readTag (ofBytes config (header ++ rest)) = (.ok tag, after) := by
  obtain ⟨inner, hinner⟩ :
      ∃ inner, (ofBytes config (header ++ rest)).nesting.room.entered tag = .ok inner := by
    cases hcompound : tag.isCompound with
    | true =>
        obtain ⟨room, hroom⟩ := hvalid.room_deeper config.readTracking
        exact ⟨room, (Room.entered_of_compound hcompound _).trans hroom⟩
    | false => exact ⟨_, Room.entered_of_scalar hcompound _⟩
  exact ⟨_, readTag_entered (accepts_ofBytes config _ 1) hdecode rfl hinner⟩

variable {state after : State Bytes}

theorem expect_of_read (hread : readTag state = (.ok tag, after)) (view : Tag → Except Error α) :
    expect view state = (view tag, after) := by
  rw [expect, Attempt.bind_of_ok hread]
  rfl

/-- That there are no numbers is found before the tag is read, but it is found all the same. -/
theorem expectNumber_of_read (hread : readTag state = (.ok tag, after))
    (view : Tag → Except Error α) :
    (expectNumber view state).1 =
      (Header.requireNativeFloats state.options >>= fun _ => view tag) := by
  rw [expectNumber, Attempt.get_bind]
  cases hnative : Header.requireNativeFloats state.options with
  | ok native => exact congrArg Prod.fst (expect_of_read hread view)
  | error error => rfl

theorem reply_of_result (attempt : Attempt (State Bytes) α) (wrap : α → Reply)
    (state : State Bytes) :
    ((attempt >>= fun value => pure (wrap value) : Attempt (State Bytes) Reply) state).1 =
      (attempt state).1.map wrap := by
  rcases hrun : attempt state with ⟨result, after⟩
  cases result with
  | ok value =>
      rw [Attempt.bind_of_ok hrun]
      rfl
  | error error =>
      rw [Attempt.bind_of_error hrun]
      rfl

theorem inRange_result (word : Attempt (State Bytes) α) (accepts : α → Bool)
    (state : State Bytes) :
    (inRange accepts word state).1 = (word state).1 >>= ranged accepts := by
  rcases hrun : word state with ⟨result, after⟩
  cases result with
  | ok found =>
      rw [inRange, Attempt.bind_of_ok hrun]
      show _ = ranged accepts found
      cases haccepts : accepts found with
      | true => rw [ranged, haccepts]; rfl
      | false => rw [ranged, haccepts]; rfl
  | error error =>
      rw [inRange, Attempt.bind_of_error hrun]
      rfl

theorem expectUnsignedWord_of_read (hread : readTag state = (.ok tag, after)) :
    expectUnsignedWord state = (tag.word .uint tag.unsigned?, after) := by
  rw [expectUnsignedWord, expect_of_read hread]
  cases tag with
  | int value => cases hword : (Tag.int value).unsigned? <;> simp only [hword] <;> rfl
  | _ => rfl

theorem expectSignedWord_of_read (hread : readTag state = (.ok tag, after)) :
    expectSignedWord state = (tag.word .int tag.signed?, after) := by
  rw [expectSignedWord, expect_of_read hread]
  cases tag with
  | uint value => cases hword : (Tag.uint value).signed? <;> simp only [hword] <;> rfl
  | _ => rfl

section

variable {n : Nat} (hdecode : Header.decode options bytes = .ok (tag, n))
  (hread : readTag state = (.ok tag, after))

include hdecode hread

theorem unsigned_judged {accepts : UInt64 → Bool} (hleast : 0 ≤ least)
    (hgreatest : greatest < UInt64.size)
    (haccepts : ∀ word, accepts word = true ↔
      least ≤ (word.toNat : Int) ∧ (word.toNat : Int) ≤ greatest) :
    Judged options bytes .uint least greatest .integer
      ((inRange accepts expectUnsignedWord >>= fun word => pure (.integer word.toNat) :
        Attempt (State Bytes) Reply) state).1 := by
  rw [reply_of_result, inRange_result, expectUnsignedWord_of_read hread]
  refine .of_word hdecode (fun _ => Tag.unsigned?_eq_some) haccepts (fun value hmin hmax => ?_) _
  exact exists_unsigned (by omega) (by omega)

theorem signed_judged {accepts : Int64 → Bool} (hleast : -0x8000000000000000 ≤ least)
    (hgreatest : greatest < 0x8000000000000000)
    (haccepts : ∀ word, accepts word = true ↔ least ≤ word.toInt ∧ word.toInt ≤ greatest) :
    Judged options bytes .int least greatest .integer
      ((inRange accepts expectSignedWord >>= fun word => pure (.integer word.toInt) :
        Attempt (State Bytes) Reply) state).1 := by
  rw [reply_of_result, inRange_result, expectSignedWord_of_read hread]
  refine .of_word hdecode (fun _ => Tag.signed?_eq_some) haccepts (fun value hmin hmax => ?_) _
  exact exists_signed (by omega) (by omega)

theorem asked_judged {call : Call} (hasks : call.Asks expected least greatest) :
    Judged options bytes expected least greatest .integer (perform call state).1 := by
  cases hasks with
  | @unsigned bits hbits =>
      have hpow : 2 ^ bits ≤ UInt64.size := Nat.pow_le_pow_right (by decide) hbits
      refine unsigned_judged hdecode hread (Int.le_refl 0) (by omega) fun word => ?_
      rw [decide_eq_true_iff, Nat.pow_eq]
      omega
  | @signed bits hbits =>
      have hpow : 2 ^ (bits - 1) ≤ 0x8000000000000000 :=
        Nat.pow_le_pow_right (show 0 < 2 by decide) (show bits - 1 ≤ 63 by omega)
      refine signed_judged hdecode hread (by omega) (by omega) fun word => ?_
      rw [decide_eq_true_iff, Nat.pow_eq]
      omega
  | unsignedIn least greatest =>
      have hbound : greatest.toNat < UInt64.size := greatest.toNat_lt
      refine unsigned_judged hdecode hread (Int.natCast_nonneg _) (by omega) fun word => ?_
      rw [decide_eq_true_iff, UInt64.le_iff_toNat_le, UInt64.le_iff_toNat_le]
      omega
  | signedIn least greatest =>
      refine signed_judged hdecode hread least.le_toInt greatest.toInt_lt fun word => ?_
      rw [decide_eq_true_iff, Int64.le_iff_toInt_le, Int64.le_iff_toInt_le]

end

theorem perform_judged {call : Call} (hvalid : config.Valid)
    (hasks : call.Asks expected least greatest) (bytes : Bytes) :
    Judged config.tagOptions bytes expected least greatest .integer
      (perform call (ofBytes config bytes)).1 := by
  cases hdecode : Header.decode config.tagOptions bytes with
  | error error => exact .of_error hdecode _ _
  | ok found =>
      obtain ⟨tag, n⟩ := found
      obtain ⟨header, rest, rfl, rfl, hheader⟩ := Header.decode_split hdecode
      obtain ⟨after, hread⟩ := readTag_ofBytes hvalid hheader rest
      exact asked_judged hdecode hread hasks

end State
end Reader

/-! The tree's side. -/

/-- The tag of the root is that of the first header. -/
theorem Tree.root_of_parseWithin {maxDepth : Nat} {tree : Tree}
    (hparse : parseWithin config maxDepth bytes = .ok tree) :
    tree.options = config.tagOptions ∧ ∃ header rest, bytes = header ++ rest ∧
      Header.decode config.tagOptions header = .ok (tree.tagAt tree.root, header.length) := by
  obtain ⟨-, -, root, start, done, hinitial, hrun, -, rfl⟩ :=
    parseFront_eq_ok (parseFront_of_parseWithin hparse)
  obtain ⟨arena, rfl, -, -, hroot⟩ := Progress.start_of_initial hinitial
  obtain ⟨message, hcomplete, hbytes, -, hshown, -⟩ := run_start_eq_ok ⟨_, hroot⟩ hrun
  refine ⟨rfl, ?_⟩
  cases hshown with
  | @node header payload children _ data hdata _ _ =>
      cases hcomplete with
      | node hheader _ _ _ =>
          rw [Message.bytes, List.append_assoc, List.append_assoc] at hbytes
          refine ⟨header, _, hbytes, hheader.trans ?_⟩
          exact congrArg (fun node : NodeData => Except.ok (node.tag, header.length)) hdata.symm

/-! Read for read, what a reader makes of a tag is what a node makes of it. -/

namespace Reader.State

variable {state after : State Bytes} {tree : Tree} {id : NodeId}
  (hread : readTag state = (.ok (tree.tagAt id), after))

include hread

theorem expectNil_eq_asNil : (expectNil state).1 = tree.asNil id := by
  refine (congrArg Prod.fst (expect_of_read hread _)).trans ?_
  unfold Tree.asNil
  cases tree.tagAt id <;> rfl

theorem expectBool_eq_asBool : (expectBool state).1 = tree.asBool id := by
  refine (congrArg Prod.fst (expect_of_read hread _)).trans ?_
  unfold Tree.asBool
  cases tree.tagAt id <;> rfl

theorem expectUnsigned_eq_asUnsigned (bits : Nat) :
    (expectUnsigned bits state).1 = Tree.asUnsigned bits tree id := by
  have hword : tree.asUnsignedWord id = (tree.tagAt id).word .uint (tree.tagAt id).unsigned? := by
    rw [Tree.asUnsignedWord]
    cases tree.tagAt id <;> rfl
  rw [expectUnsigned, inRange_result, expectUnsignedWord_of_read hread, Tree.asUnsigned, hword]
  refine bind_congr fun word => ?_
  simp only [ranged, decide_eq_true_eq, pure, Except.pure, throw, throwThe, MonadExceptOf.throw]

theorem expectSigned_eq_asSigned (bits : Nat) :
    (expectSigned bits state).1 = Tree.asSigned bits tree id := by
  have hword : tree.asSignedWord id = (tree.tagAt id).word .int (tree.tagAt id).signed? := by
    rw [Tree.asSignedWord]
    cases tree.tagAt id <;> rfl
  rw [expectSigned, inRange_result, expectSignedWord_of_read hread, Tree.asSigned, hword]
  refine bind_congr fun word => ?_
  simp only [ranged, decide_eq_true_eq, pure, Except.pure, throw, throwThe, MonadExceptOf.throw]

theorem expectSingleBits_eq_asSingleBits : (expectSingleBits state).1 = tree.asSingleBits id := by
  refine (congrArg Prod.fst (expect_of_read hread _)).trans ?_
  unfold Tree.asSingleBits
  cases tree.tagAt id <;> rfl

theorem expectDoubleBits_eq_asDoubleBits : (expectDoubleBits state).1 = tree.asDoubleBits id := by
  refine (congrArg Prod.fst (expect_of_read hread _)).trans ?_
  unfold Tree.asDoubleBits
  cases tree.tagAt id <;> rfl

section Numbers

variable (hoptions : state.options = tree.options)

include hoptions

/-- A node has its tag before it is found that there are no numbers, a reader has not. -/
theorem expectNumber_eq {view : Tag → Except Error α} {look : Tag → Except Error α}
    (hsame : ∀ tag, view tag = look tag) :
    (expectNumber view state).1 = tree.numberAt id >>= look := by
  rw [expectNumber_of_read hread, hoptions, Tree.numberAt]
  cases Header.requireNativeFloats tree.options with
  | ok native => exact hsame _
  | error error => rfl

theorem expectSingle_eq_asSingle : (expectSingle state).1 = tree.asSingle id :=
  expectNumber_eq hread hoptions fun tag => by cases tag <;> rfl

theorem expectDouble_eq_asDouble : (expectDouble state).1 = tree.asDouble id :=
  expectNumber_eq hread hoptions fun tag => by cases tag <;> rfl

theorem expectExactSingle_eq_asExactSingle :
    (expectExactSingle state).1 = tree.asExactSingle id :=
  expectNumber_eq hread hoptions fun tag => by cases tag <;> rfl

theorem expectExactDouble_eq_asExactDouble :
    (expectExactDouble state).1 = tree.asExactDouble id :=
  expectNumber_eq hread hoptions fun tag => by cases tag <;> rfl

end Numbers

end Reader.State

namespace Concur

variable {state after : Reader.State Bytes} {tree : Tree} {id : NodeId}

theorem of_result {attempt : Attempt (Reader.State Bytes) α} {outcome : Except Error α}
    {wrap : α → Reader.Reply} {shown : α → Tree.Answer} (hresult : (attempt state).1 = outcome)
    (hsame : ∀ value, Concur (.ok (wrap value)) (.ok (shown value))) :
    Concur ((attempt >>= fun value => pure (wrap value) :
        Attempt (Reader.State Bytes) Reader.Reply) state).1
      (outcome >>= fun value => pure (shown value)) := by
  rw [Reader.State.reply_of_result, hresult]
  cases outcome with
  | ok value => exact hsame value
  | error error => exact .error error

open Reader.State in
theorem of_tag (hread : readTag state = (.ok (tree.tagAt id), after))
    (hoptions : state.options = tree.options) (scalar : Scalar) :
    Concur (Reader.State.perform scalar.call state).1 (tree.answer id scalar.query) := by
  cases scalar with
  | nil => exact of_result (expectNil_eq_asNil hread) fun _ => .done
  | bool => exact of_result (expectBool_eq_asBool hread) .bool
  | unsigned bits =>
      exact of_result (expectUnsigned_eq_asUnsigned hread bits) fun word => .integer word.toNat
  | signed bits =>
      exact of_result (expectSigned_eq_asSigned hread bits) fun word => .integer word.toInt
  | single => exact of_result (expectSingle_eq_asSingle hread hoptions) .single
  | double => exact of_result (expectDouble_eq_asDouble hread hoptions) .double
  | exactSingle => exact of_result (expectExactSingle_eq_asExactSingle hread hoptions) .single
  | exactDouble => exact of_result (expectExactDouble_eq_asExactDouble hread hoptions) .double
  | singleBits => exact of_result (expectSingleBits_eq_asSingleBits hread) .singleBits
  | doubleBits => exact of_result (expectDoubleBits_eq_asDoubleBits hread) .doubleBits

end Concur

/-- A reader that has read nothing and the root of a fresh tree answer alike, and both judge an
integer by its value. -/
theorem scalars_concur (hvalid : config.Valid) (hreader : config.reader = true)
    (hsteady : source.Steady) :
    ∃ reader, Reader.create config source = .ok reader ∧
      (∀ call expected least greatest, Reader.Call.Asks call expected least greatest →
        Judged config.tagOptions source.content expected least greatest .integer
          (Reader.perform call reader).1) ∧
      ∀ maxDepth tree, Tree.parseWithin config maxDepth source.content = .ok tree →
        ∀ scalar : Scalar,
          Concur (Reader.perform scalar.call reader).1
            (Tree.ask tree.root scalar.query { state := tree }).1 ∧
          ∀ expected least greatest, scalar.call.Asks expected least greatest →
            Judged config.tagOptions source.content expected least greatest .integer
              (Tree.ask tree.root scalar.query { state := tree }).1 := by
  obtain ⟨reader, hcreate, hperform⟩ := Reader.perform_created hvalid hreader hsteady
  have hjudged : ∀ {call : Reader.Call} {expected : Kind} {least greatest : Int},
      call.Asks expected least greatest →
        Judged config.tagOptions source.content expected least greatest .integer
          (Reader.perform call reader).1 := by
    intro call expected least greatest hasks
    rw [hperform]
    exact Reader.State.perform_judged hvalid hasks _
  refine ⟨reader, hcreate, fun _ _ _ _ hasks => hjudged hasks,
    fun maxDepth tree hparse scalar => ?_⟩
  obtain ⟨hoptions, header, rest, hcontent, hheader⟩ := Tree.root_of_parseWithin hparse
  obtain ⟨after, hread⟩ := Reader.State.readTag_ofBytes hvalid hheader rest
  rw [← hcontent] at hread
  have hconcur : Concur (Reader.perform scalar.call reader).1
      (Tree.ask tree.root scalar.query { state := tree }).1 := by
    rw [hperform, Tree.ask, Latch.query, Latch.call_result]
    exact .of_tag hread hoptions.symm scalar
  exact ⟨hconcur, fun _ _ _ hasks => (hjudged hasks).concur hconcur⟩

/-- A word wider than its value needs, behind a failure that is tried again, and a ceiling. -/
theorem scalars_concur_word :
    ∃ reader tree,
      Reader.create { dynamicAlloc := false, maxDepthWithoutAlloc := 1, bufferSize := 2 } {
          deliveries := [.chunk [0xd2, 0xff], .failure { kind := .interrupted, text := "again" },
            .chunk [0xff, 0xff, 0x7f]] } = .ok reader ∧
      Tree.parse { dynamicAlloc := false, maxDepthWithoutAlloc := 1, bufferSize := 2 }
        [0xd2, 0xff, 0xff, 0xff, 0x7f] = .ok tree ∧
      (Reader.perform (.expectSigned 16) reader).1 = .ok (.integer (-129)) ∧
      (Reader.perform (.expectSigned 8) reader).1 = .error (.invalid .outOfRange) ∧
      (Tree.ask tree.root (.unsigned 64) { state := tree }).1 = .error (.invalid .outOfRange) := by
  have hsteady : Source.Steady {
      deliveries := [.chunk [0xd2, 0xff], .failure { kind := .interrupted, text := "again" },
        .chunk [0xff, 0xff, 0x7f]] } := by decide
  have hspells : Header.Spells (-129) [0xd2, 0xff, 0xff, 0xff, 0x7f] :=
    @Header.Spells.signed 0xd2 4 (-129) (by decide) (by decide) (by decide)
  have hvalid : Config.Valid
      { dynamicAlloc := false, maxDepthWithoutAlloc := 1, bufferSize := 2 } := by decide
  have hcomplete : (Message.node [0xd2, 0xff, 0xff, 0xff, 0x7f] (.int (-129)) [] []).Complete {} :=
    .node (by decide) rfl rfl fun _ hnone => by cases hnone
  have hdepth : 0 ≤ Config.nodeDepthLimit
      { dynamicAlloc := false, maxDepthWithoutAlloc := 1, bufferSize := 2 } maxSize := by decide
  obtain ⟨tree, hparse, -⟩ :=
    Tree.parseWithin_ok hvalid rfl (by decide) hcomplete hdepth (by decide) (by decide)
  obtain ⟨reader, hcreate, hreads, htrees⟩ := scalars_concur hvalid rfl hsteady
  refine ⟨reader, tree, hcreate, hparse, ?_, ?_, ?_⟩
  · exact (hreads _ _ _ _ (.signed (by decide))).fits _ _ [] hspells rfl (by decide) (by decide)
  · exact (hreads _ _ _ _ (.signed (by decide))).outside _ _ [] hspells rfl (by decide)
  · exact ((htrees _ _ hparse (.unsigned 64)).2 _ _ _ (.unsigned (by decide))).outside _ _ []
      hspells rfl (by decide)

end MessagePack
