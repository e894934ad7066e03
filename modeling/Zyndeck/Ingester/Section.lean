import Mathlib.Data.List.Forall2
import Zyndeck.Data.Blocks
import Zyndeck.Ingester.Chunk

namespace Zyndeck.Chunk

open Data Str

/-! A transcript as lines under sections: what `split` cuts into chunks. -/

inductive Mark where
  | page (number : Nat)
  | heading (title : Text)
  | body
  deriving DecidableEq, Repr

/-- What a trimmed line is. -/
def Mark.read (line : Text) : Mark :=
  match parsePageMarker line with
  | some number => .page number
  | none =>
      match stripPrefix "## ".toList line with
      | some title => .heading (trim title)
      | none => .body

/-- A stretch of the transcript under one heading line; those of equal titles
differ by their number. -/
structure Section where
  number : Nat
  title : Text
  deriving DecidableEq, Repr

structure BodyLine where
  within : Section
  page : Nat
  text : Text
  deriving DecidableEq, Repr

/-- The body lines among the trimmed lines of the rest of a transcript. -/
def label (within : Section) (page : Nat) : List Text → List BodyLine
  | [] => []
  | line :: rest =>
      match Mark.read line with
      | .page number => label within number rest
      | .heading title => label ⟨within.number + 1, title⟩ page rest
      | .body => ⟨within, page, line⟩ :: label within page rest

def trimmed (raws : List Text) : List Text :=
  (raws.map trim).filter fun line => decide (line ≠ [])

def bodyLines (transcript : Text) : List BodyLine :=
  label ⟨0, []⟩ 1 (trimmed (lines transcript))

theorem section_le_of_mem_label {within : Section} {page : Nat} {rest : List Text}
    {line : BodyLine} (member : line ∈ label within page rest) :
    within.number ≤ line.within.number := by
  induction rest generalizing within page with
  | nil => cases member
  | cons text rest induction =>
      unfold label at member
      split at member
      · exact induction member
      · have := induction member
        simp only at this
        omega
      · cases member with
        | head => rfl
        | tail _ later => exact induction later

/-! Lines joined by newlines. -/

def joinLines (texts : List Text) : Text := ['\n'].intercalate texts

theorem joinLines_snoc (first : Text) (texts : List Text) (text : Text) :
    joinLines (first :: (texts ++ [text])) = joinLines (first :: texts) ++ '\n' :: text := by
  induction texts generalizing first with
  | nil => simp [joinLines]
  | cons second texts induction =>
      simp only [joinLines, List.cons_append, List.intercalate_cons_cons] at induction ⊢
      rw [induction]
      simp

def contentOf (block : List BodyLine) : Text := joinLines (block.map (·.text))

/-- Whether the open chunk takes a line in. -/
def Fits (block : List BodyLine) (line : BodyLine) : Prop :=
  block.head?.map (·.within) = some line.within ∧
    (contentOf block).length + 1 + line.text.length ≤ maxChunkChars

instance (block : List BodyLine) (line : BodyLine) : Decidable (Fits block line) := by
  unfold Fits
  infer_instance

def chunkOf : List BodyLine → Chunk
  | [] => ⟨[], 0, []⟩
  | first :: block => ⟨first.within.title, first.page, contentOf (first :: block)⟩

structure Builder.Holds (builder : Builder) (within : Section) (block : List BodyLine) :
    Prop where
  heading : builder.heading = within.title
  content : builder.content = contentOf block
  within : ∀ line ∈ block, line.within = within
  page : ∀ first ∈ block.head?, builder.page = first.page
  nonempty : ∀ line ∈ block, line.text ≠ []

theorem Builder.Holds.content_eq_nil {builder : Builder} {within : Section}
    {block : List BodyLine} (holds : builder.Holds within block) :
    builder.content = [] ↔ block = [] := by
  rw [holds.content]
  cases block with
  | nil => simp [contentOf, joinLines]
  | cons first block =>
      have := holds.nonempty first (.head _)
      cases block <;> simp [contentOf, joinLines, this]

theorem Builder.Holds.flush {builder : Builder} {within : Section} {block : List BodyLine}
    (holds : builder.Holds within block) :
    builder.flush =
      { builder with
        chunks := builder.chunks ++ (cut Fits block []).map chunkOf
        content := [] } := by
  unfold Builder.flush
  split
  next empty =>
    cases holds.content_eq_nil.mp empty
    simp [cut, ← empty]
  next open_ =>
    cases block with
    | nil => exact absurd (holds.content_eq_nil.mpr rfl) open_
    | cons first block =>
        simp [cut, chunkOf, holds.heading, holds.content, holds.within first (.head _),
          holds.page first rfl]

theorem Builder.Holds.startSection {builder : Builder} {within : Section}
    {block : List BodyLine} (holds : builder.Holds within block) (title : Text) :
    (builder.startSection title).chunks =
        builder.chunks ++ (cut Fits block []).map chunkOf ∧
      (builder.startSection title).Holds ⟨within.number + 1, title⟩ [] := by
  rw [Builder.startSection, holds.flush]
  exact ⟨rfl, rfl, rfl, by simp, by simp, by simp⟩

theorem Builder.Holds.pushLine {builder : Builder} {within : Section} {block : List BodyLine}
    (holds : builder.Holds within block) {line : Text} (nonempty : line ≠ []) (page : Nat)
    (rest : List BodyLine) :
    ∃ closed open_, (builder.pushLine line page).Holds within open_ ∧
      (builder.pushLine line page).chunks = builder.chunks ++ closed.map chunkOf ∧
      cut Fits block (⟨within, page, line⟩ :: rest) = closed ++ cut Fits open_ rest := by
  have opened (chunks : List Chunk) :
      Builder.Holds ⟨chunks, builder.heading, page, line⟩ within [⟨within, page, line⟩] :=
    ⟨holds.heading, by simp [contentOf, joinLines], by simp, by simp, by simpa using nonempty⟩
  unfold Builder.pushLine
  split
  next empty =>
    cases holds.content_eq_nil.mp empty
    exact ⟨[], _, opened _, by simp, by simp⟩
  next open_ =>
    cases block with
    | nil => exact absurd (holds.content_eq_nil.mpr rfl) open_
    | cons first block =>
        have fits : Fits (first :: block) ⟨within, page, line⟩ ↔
            ¬ maxChunkChars < builder.content.length + 1 + line.length := by
          simp [Fits, holds.content, holds.within first (.head _)]
        split
        next full =>
          rw [holds.flush]
          refine ⟨_, _, opened _, rfl, ?_⟩
          rw [cut_of_unfit Fits (by simpa [fits] using full), cut_nil_cons]
        next fitting =>
          refine ⟨[], first :: (block ++ [⟨within, page, line⟩]), ⟨holds.heading, ?_, ?_, ?_, ?_⟩,
            by simp, by rw [cut_of_fits Fits (fits.mpr fitting), List.nil_append]⟩
          · simp only [contentOf, List.map_cons, List.map_append, List.map_nil, joinLines_snoc,
              holds.content]
          · simpa [or_imp, forall_and] using holds.within
          · simpa using holds.page
          · simpa [or_imp, forall_and, nonempty] using holds.nonempty

theorem Builder.Holds.unfit {builder : Builder} {within : Section} {block : List BodyLine}
    (holds : builder.Holds within block) (title : Text) (page : Nat) (rest : List Text) :
    ∀ line ∈ (label ⟨within.number + 1, title⟩ page rest).head?, ¬ Fits block line := by
  intro line first fits
  have later := section_le_of_mem_label (List.mem_of_mem_head? first)
  cases block with
  | nil => simp [Fits] at fits
  | cons head block =>
      have same : head.within = line.within := by simpa [Fits] using fits.1
      rw [← same, holds.within head (.head _)] at later
      simp only at later
      omega

theorem Builder.Holds.finish {builder : Builder} {within : Section} {block : List BodyLine}
    (holds : builder.Holds within block) (page : Nat) (raws : List Text) :
    (raws.foldl scan (builder, page)).1.finish =
      builder.chunks ++ (cut Fits block (label within page (trimmed raws))).map chunkOf := by
  induction raws generalizing builder within block page with
  | nil => simp [Builder.finish, holds.flush, trimmed, label]
  | cons raw raws induction =>
      by_cases empty : trim raw = []
      · simpa [scan, trimmed, empty] using induction holds page
      · have lines : trimmed (raw :: raws) = trim raw :: trimmed raws := by simp [trimmed, empty]
        rw [List.foldl_cons, lines]
        unfold scan label Mark.read
        simp only [if_neg empty]
        cases parsePageMarker (trim raw) with
        | some number => exact induction holds number
        | none =>
            cases stripPrefix "## ".toList (trim raw) with
            | some title =>
                obtain ⟨chunks, started⟩ := holds.startSection (trim title)
                refine (induction started page).trans ?_
                simp only [cut_of_unfit Fits (holds.unfit (trim title) page (trimmed raws)),
                  chunks, List.map_append, List.append_assoc]
            | none =>
                obtain ⟨closed, open_, pushed, chunks, same⟩ :=
                  holds.pushLine empty page (label within page (trimmed raws))
                refine (induction pushed page).trans ?_
                rw [chunks, same, List.map_append, List.append_assoc]

/-- The blocks that the budget and the headings cut the body lines into. -/
def blocks (transcript : Text) : List (List BodyLine) := cut Fits [] (bodyLines transcript)

theorem split_eq (transcript : Text) : split transcript = (blocks transcript).map chunkOf := by
  have holds : Builder.default.Holds ⟨0, []⟩ [] := ⟨rfl, rfl, by simp, by simp, by simp⟩
  exact holds.finish 1 (lines transcript)

theorem mem_label {within : Section} {page : Nat} {rest : List Text} {line : BodyLine}
    (member : line ∈ label within page rest) : line.text ∈ rest := by
  fun_induction label within page rest with
  | case1 => cases member
  | case2 _ _ text rest _ _ induction => exact .tail _ (induction member)
  | case3 _ _ text rest _ _ induction => exact .tail _ (induction member)
  | case4 _ _ text rest _ induction =>
      cases member with
      | head => exact .head _
      | tail _ later => exact .tail _ (induction later)

theorem flatten_blocks (transcript : Text) : (blocks transcript).flatten = bodyLines transcript :=
  flatten_cut Fits [] _

theorem grown_blocks (transcript : Text) : ∀ block ∈ blocks transcript, Grown Fits block := by
  apply cut_grown
  intro front item rest same
  simp at same

theorem full_blocks (transcript : Text) : (blocks transcript).IsChain (Full Fits) :=
  cut_full Fits [] _

theorem ne_nil_of_mem_blocks {transcript : Text} {block : List BodyLine}
    (member : block ∈ blocks transcript) : block ≠ [] :=
  ne_nil_of_mem_cut Fits [] _ block member

theorem within_of_grown {first line : BodyLine} {block : List BodyLine}
    (grown : Grown Fits (first :: block)) (member : line ∈ first :: block) :
    line.within = first.within := by
  cases member with
  | head => rfl
  | tail _ later =>
      have ⟨front, rest, same⟩ := List.append_of_mem later
      have fits := grown (first :: front) line rest (by rw [same, List.cons_append]) (by simp)
      exact (Option.some.inj fits.1).symm

theorem contentOf_snoc (first : BodyLine) (block : List BodyLine) (line : BodyLine) :
    contentOf (first :: (block ++ [line])) = contentOf (first :: block) ++ '\n' :: line.text := by
  simp only [contentOf, List.map_cons, List.map_append, List.map_nil, joinLines_snoc]

theorem length_of_grown {first : BodyLine} {block : List BodyLine}
    (grown : Grown Fits (first :: block)) (several : block ≠ []) :
    (contentOf (first :: block)).length ≤ maxChunkChars := by
  cases block using List.reverseRecOn with
  | nil => exact absurd rfl several
  | append_singleton front last =>
      have fits := (grown (first :: front) last [] (by simp) (by simp)).2
      rw [contentOf_snoc, List.length_append, List.length_cons]
      omega

/-- A chunk gives the lines of a block, their heading and the page of the first. -/
structure Cites (chunk : Chunk) (block : List BodyLine) : Prop where
  content : chunk.content = joinLines (block.map (·.text))
  heading : ∃ within, (∀ line ∈ block, line.within = within) ∧ chunk.heading = within.title
  page : ∃ first, block.head? = some first ∧ chunk.page = first.page

theorem cites_chunkOf {transcript : Text} {block : List BodyLine}
    (member : block ∈ blocks transcript) : Cites (chunkOf block) block := by
  cases block with
  | nil => exact absurd rfl (ne_nil_of_mem_blocks member)
  | cons first block =>
      have grown := grown_blocks transcript _ member
      exact ⟨rfl, ⟨first.within, fun line => within_of_grown grown, rfl⟩, first, rfl, rfl⟩

theorem split_cites (transcript : Text) :
    List.Forall₂ Cites (split transcript) (blocks transcript) := by
  rw [split_eq, List.forall₂_map_left_iff, List.forall₂_same]
  intro block member
  exact cites_chunkOf member

/-- The chunks of a transcript are its body lines, cut into blocks. -/
theorem split_cuts (transcript : Text) :
    ∃ blocks : List (List BodyLine), blocks.flatten = bodyLines transcript ∧
      (∀ block ∈ blocks, block ≠ []) ∧ List.Forall₂ Cites (split transcript) blocks :=
  ⟨blocks transcript, flatten_blocks transcript, fun _ => ne_nil_of_mem_blocks,
    split_cites transcript⟩

/-- The first line of a chunk would not have fitted the previous one, if that is
under the same heading. -/
def Needed (chunk : Chunk) (block next : List BodyLine) : Prop :=
  ∀ last ∈ block.getLast?, ∀ first ∈ next.head?, last.within = first.within →
    maxChunkChars < chunk.content.length + 1 + first.text.length

theorem needed_chunkOf {block next : List BodyLine} (grown : Grown Fits block)
    (full : Full Fits block next) : Needed (chunkOf block) block next := by
  intro last ends first starts same
  cases block with
  | nil => simp at ends
  | cons head block =>
      have within := within_of_grown grown (List.mem_of_getLast? ends)
      apply Nat.lt_of_not_le
      intro fitting
      exact full first starts ⟨by simp [← same, within], fitting⟩

theorem split_sized {transcript : Text} {chunk : Chunk} (member : chunk ∈ split transcript) :
    chunk.content.length ≤ maxChunkChars ∨
      ∃ line ∈ trimmed (lines transcript), chunk.content = line := by
  rw [split_eq] at member
  have ⟨block, inside, same⟩ := List.mem_map.mp member
  cases same
  match block with
  | [] => exact .inl (Nat.zero_le _)
  | [line] =>
      have body : line ∈ bodyLines transcript := by
        rw [← flatten_blocks]
        exact List.mem_flatten_of_mem inside (.head _)
      exact .inr ⟨line.text, mem_label body, by simp [chunkOf, contentOf, joinLines]⟩
  | first :: second :: block =>
      exact .inl (length_of_grown (grown_blocks transcript _ inside) (by simp))

/-- Chunks keep to the budget, and no section is split where it need not be. -/
theorem split_greedy (transcript : Text) :
    (∀ chunk ∈ split transcript, chunk.content.length ≤ maxChunkChars ∨
      ∃ line ∈ trimmed (lines transcript), chunk.content = line) ∧
    ∃ blocks : List (List BodyLine), blocks.flatten = bodyLines transcript ∧
      List.Forall₂ Cites (split transcript) blocks ∧
      ((split transcript).zip blocks).IsChain fun chunk next => Needed chunk.1 chunk.2 next.2 := by
  refine ⟨fun chunk => split_sized, blocks transcript, flatten_blocks transcript,
    split_cites transcript, ?_⟩
  rw [split_eq, ← List.map_id (blocks transcript), List.map_map, List.zip_map', List.isChain_map]
  apply (full_blocks transcript).imp_of_mem_imp
  intro block next inside _ full
  exact needed_chunkOf (grown_blocks transcript block inside) full

end Zyndeck.Chunk
