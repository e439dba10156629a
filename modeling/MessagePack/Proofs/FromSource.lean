import MessagePack.Proofs.Arrival

/-!
Trees from a source against trees from a buffer. The limit on the size is met at another moment by
each way in, and what comes behind a message is another matter to each; the verdict is the same.
-/

namespace MessagePack

namespace Tree

variable {config : Config} {source : Source} {tree : Tree}

/-- A steady source is read to its end, or to one byte more than is allowed. -/
theorem readFrom_steady (config : Config) (hsteady : source.Steady) :
    ∃ after, readFrom config source =
        (if config.maxSize < source.content.length then
          .error (.tooBig (config.maxSize + 1) config.maxSize)
        else
          parse config source.content, after) ∧
      after.content = source.content.drop (config.maxSize + 1) := by
  obtain ⟨after, hcollect, -, hcontent⟩ :=
    hsteady.collect (config.maxSize + 1) #[] (Nat.zero_le _)
  rw [List.nil_append] at hcollect hcontent
  refine ⟨after, ?_, hcontent⟩
  rw [readFrom, hcollect]
  by_cases hbig : config.maxSize < source.content.length
  · have hlength : (source.content.take (config.maxSize + 1)).length = config.maxSize + 1 :=
      List.length_take_of_le hbig
    have hreached : hasAtLeast (config.maxSize + 1)
        (source.content.take (config.maxSize + 1)) = true :=
      (hasAtLeast_iff _ _).mpr (Nat.le_of_eq hlength.symm)
    simp only [hreached, hlength, hbig, if_true]
  · have hall : source.content.take (config.maxSize + 1) = source.content :=
      List.take_of_length_le (by omega)
    have hshort : hasAtLeast (config.maxSize + 1) source.content = false := by
      rw [Bool.eq_false_iff, ne_eq, hasAtLeast_iff]
      omega
    simp only [hall, hshort, hbig, if_false, Bool.false_eq_true]

/-- A stream over a source that holds one message gives the tree of it, and then comes to its
end. -/
theorem next_of_parse (hvalid : config.Valid) (hnode : config.node = true)
    (hsteady : source.Steady) (hparse : parse config source.content = .ok tree) :
    ∃ stream first last, Stream.create config source = .ok stream ∧
      Stream.next stream = (.ok (some tree), first) ∧ Stream.next first = (.ok none, last) := by
  have hroom := hvalid.bufferSize_pos
  have hlength := messageLength_of_parseWithin hparse
  have hwhole : parseWithin config config.maxDepth
      (source.content.take source.content.length) = .ok tree := by
    rw [List.take_length]
    exact hparse
  obtain ⟨state, hcreate, -, -, hfed, -⟩ := Stream.create_ok hvalid hnode hsteady
  have hgives := hfed.next hroom
  have hpos := length_pos_of_parseWithin hparse
  rcases hnext : state.next with ⟨result, after⟩
  rw [hnext] at hgives
  cases hgives with
  | @tree n found _ hfound hagain hafter _ =>
      cases hlength.symm.trans hfound
      cases hwhole.symm.trans hagain
      rw [List.drop_length] at hafter
      obtain ⟨last, hlast, -⟩ := hafter.next_settled hroom
        ⟨messageLength_nil _, Nat.zero_le _, .inr rfl⟩
      exact ⟨{ state }, { state := after }, { state := last }, hcreate,
        Latch.call_of_ok hnext, Latch.call_of_ok hlast⟩
  | waiting | settled =>
      rw [hfed.next_none hroom hnext] at hpos
      exact absurd hpos (Nat.lt_irrefl 0)
  | stops hstops =>
      have hnone := hstops.harvest.1
      rw [harvest_tree hlength hwhole] at hnone
      cases hnone

/-- A limit that is cut to what a word can hold makes no difference to bytes that can be counted. -/
theorem collect_word (hsteady : source.Steady)
    (hlength : source.content.length ≤ MessagePack.maxSize) (limit : Nat) :
    (source.collect (min limit MessagePack.maxSize) #[]).1 = (source.collect limit #[]).1 := by
  obtain ⟨_, hcut, -⟩ := hsteady.collect (min limit MessagePack.maxSize) #[] (Nat.zero_le _)
  obtain ⟨_, hwhole, -⟩ := hsteady.collect limit #[] (Nat.zero_le _)
  have hsame : source.content.take (min limit MessagePack.maxSize) =
      source.content.take limit := by
    rw [← List.take_take, List.take_of_length_le hlength]
  rw [hcut, hwhole, List.nil_append, hsame]

/-- Reading a source to its end comes to what parsing its bytes comes to. -/
structure Coincides (config : Config) (source : Source) : Prop where
  ok : ∀ tree, (readFrom config source).1 = .ok tree ↔ parse config source.content = .ok tree
  tooBig : config.maxSize < source.content.length →
    (readFrom config source).1 = .error (.tooBig (config.maxSize + 1) config.maxSize)
  taken : ∃ taken, source.content = taken ++ (readFrom config source).2.content ∧
    taken.length ≤ config.maxSize + 1
  within : source.content.length ≤ config.maxSize →
    (readFrom config source).1 = parse config source.content
  /-- The limit that the source is read to may be cut to what a word can hold. -/
  word : source.content.length ≤ MessagePack.maxSize →
    (source.collect (min (config.maxSize + 1) MessagePack.maxSize) #[]).1 =
      (source.collect (config.maxSize + 1) #[]).1
  stream : ∀ tree, (readFrom config source).1 = .ok tree →
    ∃ stream first last, Stream.create config source = .ok stream ∧
      Stream.next stream = (.ok (some tree), first) ∧ Stream.next first = (.ok none, last)

/-- However its bytes are delivered, a source comes to the same as a buffer, but that one with too
much in it is given up as soon as this is known. -/
theorem readFrom_coincides (hvalid : config.Valid) (hnode : config.node = true)
    (hsteady : source.Steady) : Coincides config source := by
  obtain ⟨after, hread, hcontent⟩ := readFrom_steady config hsteady
  have hbig : config.maxSize < source.content.length →
      (readFrom config source).1 = .error (.tooBig (config.maxSize + 1) config.maxSize) :=
    fun hbig => by rw [hread, if_pos hbig]
  have hsmall : source.content.length ≤ config.maxSize →
      (readFrom config source).1 = parse config source.content :=
    fun hsmall => by rw [hread, if_neg (Nat.not_lt.mpr hsmall)]
  have hsame : ∀ tree, (readFrom config source).1 = .ok tree ↔
      parse config source.content = .ok tree := by
    intro tree
    rcases Nat.lt_or_ge config.maxSize source.content.length with hlength | hlength
    · constructor
      · intro hok
        rw [hbig hlength] at hok
        cases hok
      · intro hparse
        exact absurd (length_le_of_parseWithin hparse) (Nat.not_le.mpr hlength)
    · rw [hsmall hlength]
  refine ⟨hsame, hbig, ⟨source.content.take (config.maxSize + 1), ?_, List.length_take_le _ _⟩,
    hsmall, fun hlength => collect_word hsteady hlength _,
    fun tree hok => next_of_parse hvalid hnode hsteady ((hsame tree).mp hok)⟩
  rw [hread, hcontent, List.take_append_drop]

/-- A message in two pieces that just keeps within the limit, and is beyond a smaller one. -/
theorem readFrom_coincides_pieces :
    ∃ source : Source, source.deliveries = [.chunk [0x92, 0x01],
        .failure { kind := .interrupted, text := "again" }, .chunk [0xc0]] ∧
      (∃ tree, (readFrom { maxSize := 3 } source).1 = .ok tree) ∧
        (readFrom { maxSize := 2 } source).1 = .error (.tooBig 3 2) := by
  let source : Source := {
    deliveries := [.chunk [0x92, 0x01],
      .failure { kind := .interrupted, text := "again" }, .chunk [0xc0]] }
  have hsteady : source.Steady := by decide
  let items : List Message := [.node [0x01] (.uint 1) [] [], .node [0xc0] .nil [] []]
  have hitems : ∀ child ∈ items, child.Complete {} := by
    intro child hchild
    simp only [items, List.mem_cons, List.not_mem_nil, or_false] at hchild
    rcases hchild with rfl | rfl <;> exact .node rfl rfl rfl fun _ hnone => by cases hnone
  have hcomplete : (Message.node [0x92] (.array 2) [] items).Complete {} :=
    .node rfl rfl rfl hitems
  have hadmits : (Limits.of { maxSize := 3 } 3).Admits (.node [0x92] (.array 2) [] items) :=
    ⟨by decide, by decide, by decide⟩
  have hvalid : Config.Valid { maxSize := 3 } := by decide
  have htight : Config.Valid { maxSize := 2 } := by decide
  obtain ⟨tree, hparse⟩ := parseWithin_admitted hvalid rfl (by decide) hcomplete hadmits
  have hall := readFrom_coincides hvalid rfl hsteady
  have hshort := readFrom_coincides htight rfl hsteady
  exact ⟨source, rfl, ⟨tree, (hall.ok tree).mpr hparse⟩, hshort.tooBig (by decide)⟩

end Tree
end MessagePack
