import Zyndeck.Core.Basic

namespace Zyndeck.Str

/-! The methods of `str` the pipeline uses. -/

/-- `char::is_whitespace`: the Unicode property `White_Space`. -/
def isWhitespace (char : Char) : Bool :=
  let code := char.toNat
  (9 ≤ code && code ≤ 13) || code == 0x20 || code == 0x85 || code == 0xA0 ||
    code == 0x1680 || (0x2000 ≤ code && code ≤ 0x200A) || code == 0x2028 ||
    code == 0x2029 || code == 0x202F || code == 0x205F || code == 0x3000

def trim (text : Text) : Text :=
  (((text.dropWhile isWhitespace).reverse).dropWhile isWhitespace).reverse

def stripPrefix (start text : Text) : Option Text :=
  if start.isPrefixOf text then some (text.drop start.length) else none

def stripSuffix (ending text : Text) : Option Text :=
  if ending.isSuffixOf text then some (text.take (text.length - ending.length)) else none

def find (pattern : Text) : Text → Option Nat
  | [] => if pattern = [] then some 0 else none
  | char :: rest =>
      if pattern.isPrefixOf (char :: rest) then some 0 else (find pattern rest).map (· + 1)

def stripReturn (line : Text) : Text := (stripSuffix ['\r'] line).getD line

/-- The lines of the rest of a text, when `line` of the first one has been read. -/
def linesFrom (line : Text) : Text → List Text
  | [] => if line = [] then [] else [line]
  | char :: rest =>
      if char = '\n' then stripReturn line :: linesFrom [] rest
      else linesFrom (line ++ [char]) rest

def lines (text : Text) : List Text := linesFrom [] text

def usizeMax : Nat := 18446744073709551615

def digit? (char : Char) : Option Nat :=
  if '0' ≤ char ∧ char ≤ '9' then some (char.toNat - 48) else none

/-- Append a decimal digit to a `usize`, unless it is none or overflows. -/
def pushDigit (value : Option Nat) (char : Char) : Option Nat := do
  let next := (← value) * 10 + (← digit? char)
  if next ≤ usizeMax then some next else none

/-- `str::parse::<usize>`: digits, after an optional plus sign. -/
def parseUsize (text : Text) : Option Nat :=
  match (stripPrefix ['+'] text).getD text with
  | [] => none
  | digits => digits.foldl pushDigit (some 0)

example : lines ['a', '\r', '\n', '\n', 'b', '\r'] = [['a'], [], ['b', '\r']] := by decide

/-! Texts that are put together and taken apart again. -/

theorem stripPrefix_append (start text : Text) : stripPrefix start (start ++ text) = some text := by
  rw [stripPrefix, if_pos (List.isPrefixOf_iff_prefix.mpr (List.prefix_append _ _)),
    List.drop_left]

theorem stripSuffix_append (text ending : Text) :
    stripSuffix ending (text ++ ending) = some text := by
  rw [stripSuffix, if_pos (List.isSuffixOf_iff_suffix.mpr (List.suffix_append _ _)),
    List.length_append, Nat.add_sub_cancel, List.take_left]

theorem stripPrefix_of_head_ne {char other : Char} (differ : char ≠ other) (start text : Text) :
    stripPrefix (char :: start) (other :: text) = none := by
  rw [stripPrefix, if_neg]
  intro isPrefix
  have ⟨rest, same⟩ := List.isPrefixOf_iff_prefix.mp isPrefix
  exact differ (List.cons.inj same).1

theorem find_append {char : Char} {front : Text} (absent : char ∉ front) (pattern back : Text) :
    find (char :: pattern) (front ++ char :: (pattern ++ back)) = some front.length := by
  induction front with
  | nil =>
      have isPrefix : char :: pattern <+: char :: (pattern ++ back) :=
        List.prefix_append (char :: pattern) back
      rw [List.nil_append, find, if_pos (List.isPrefixOf_iff_prefix.mpr isPrefix)]
      rfl
  | cons other front induction =>
      rw [List.mem_cons, not_or] at absent
      rw [List.cons_append, find, if_neg, induction absent.2]
      · rfl
      · intro isPrefix
        have ⟨rest, same⟩ := List.isPrefixOf_iff_prefix.mp isPrefix
        exact absent.1 (List.cons.inj same).1

theorem trim_pad {before text after : Text}
    (blank : ∀ char ∈ before, isWhitespace char = true)
    (blankAfter : ∀ char ∈ after, isWhitespace char = true)
    (first : ∀ char ∈ text.head?, isWhitespace char = false)
    (last : ∀ char ∈ text.getLast?, isWhitespace char = false) :
    trim (before ++ text ++ after) = text := by
  have kept {side : Text} (dark : ∀ char ∈ side.head?, isWhitespace char = false) :
      side.dropWhile isWhitespace = side := by
    cases side with
    | nil => rfl
    | cons char rest => rw [List.dropWhile_cons_of_neg]; simp [dark char rfl]
  unfold trim
  cases text with
  | nil =>
      have gone : (after ++ []).dropWhile isWhitespace = ([] : Text).dropWhile isWhitespace :=
        List.dropWhile_append_of_pos blankAfter
      rw [List.append_nil] at gone
      rw [List.append_nil, List.dropWhile_append_of_pos blank, gone]
      rfl
  | cons char rest =>
      rw [List.append_assoc, List.dropWhile_append_of_pos blank, List.cons_append,
        List.dropWhile_cons_of_neg (by simp [first char rfl]), ← List.cons_append,
        List.reverse_append, List.dropWhile_append_of_pos (by simpa using blankAfter),
        kept (by rw [List.head?_reverse]; exact last),
        List.reverse_reverse]

theorem trim_eq_self {text : Text} (first : ∀ char ∈ text.head?, isWhitespace char = false)
    (last : ∀ char ∈ text.getLast?, isWhitespace char = false) : trim text = text := by
  have padded : trim ([] ++ text ++ []) = text := trim_pad nofun nofun first last
  rwa [List.nil_append, List.append_nil] at padded

theorem linesFrom_append (line front rest : Text) :
    linesFrom line (front ++ '\n' :: rest) =
      linesFrom line (front ++ ['\n']) ++ linesFrom [] rest := by
  induction front generalizing line with
  | nil => simp [linesFrom]
  | cons char front induction =>
      simp only [List.cons_append, linesFrom]
      split
      · rw [induction, List.cons_append]
      · exact induction _

theorem linesFrom_single {text : Text} (whole : '\n' ∉ text) (line : Text) :
    linesFrom line (text ++ ['\n']) = [stripReturn (line ++ text)] := by
  induction text generalizing line with
  | nil => simp [linesFrom]
  | cons char text induction =>
      have other : char ≠ '\n' := fun same => whole (same ▸ .head _)
      rw [List.cons_append, linesFrom, if_neg other,
        induction fun member => whole (.tail _ member), List.append_assoc]
      rfl

theorem mem_of_mem_stripReturn {line : Text} {char : Char} (member : char ∈ stripReturn line) :
    char ∈ line := by
  unfold stripReturn stripSuffix at member
  split at member
  · exact List.mem_of_mem_take member
  · exact member

theorem mem_of_mem_trim {text : Text} {char : Char} (member : char ∈ trim text) : char ∈ text := by
  unfold trim at member
  have inside := (List.dropWhile_sublist _).subset (List.mem_reverse.mp member)
  exact (List.dropWhile_sublist _).subset (List.mem_reverse.mp inside)

theorem mem_intercalate {separator char : Char} {words : List Text}
    (member : char ∈ [separator].intercalate words) :
    char = separator ∨ ∃ word ∈ words, char ∈ word := by
  induction words with
  | nil => cases member
  | cons word words induction =>
      cases words with
      | nil => exact .inr ⟨word, .head _, by simpa using member⟩
      | cons second words =>
          rw [List.intercalate_cons_cons, List.append_assoc, List.singleton_append,
            List.mem_append] at member
          cases member with
          | inl inside => exact .inr ⟨word, .head _, inside⟩
          | inr after =>
              cases after with
              | head => exact .inl rfl
              | tail _ later =>
                  cases induction later with
                  | inl same => exact .inl same
                  | inr among =>
                      have ⟨other, found, inside⟩ := among
                      exact .inr ⟨other, .tail _ found, inside⟩

theorem newline_notMem_linesFrom {line text : Text} (whole : '\n' ∉ line) :
    ∀ other ∈ linesFrom line text, '\n' ∉ other := by
  induction text generalizing line with
  | nil =>
      unfold linesFrom
      split
      · nofun
      · intro other member
        exact List.mem_singleton.mp member ▸ whole
  | cons char rest induction =>
      unfold linesFrom
      split
      · intro other member
        cases member with
        | head => exact fun inside => whole (mem_of_mem_stripReturn inside)
        | tail _ later => exact induction List.not_mem_nil other later
      next apart =>
        apply induction
        simpa [apart] using ⟨whole, Ne.symm apart⟩

theorem digit?_digitChar {value : Nat} (small : value < 10) :
    digit? value.digitChar = some value := by
  have cases_ : value ∈ List.range 10 := List.mem_range.mpr small
  revert value
  decide

theorem foldl_pushDigit_toDigits {number : Nat} (bound : number ≤ usizeMax) :
    (Nat.toDigits 10 number).foldl pushDigit (some 0) = some number := by
  induction number using Nat.strongRecOn with
  | ind number induction =>
      by_cases small : number < 10
      · rw [Nat.toDigits_of_lt_base small]
        simp [pushDigit, digit?_digitChar small, bound]
      · have big : 10 ≤ number := Nat.le_of_not_lt small
        have less : number / 10 < number := by omega
        rw [Nat.toDigits_of_base_le (by decide) big, List.foldl_append,
          induction _ less (Nat.le_trans (Nat.le_of_lt less) bound)]
        have whole : number / 10 * 10 + number % 10 = number := Nat.div_add_mod' number 10
        simp [pushDigit, digit?_digitChar (Nat.mod_lt number (by decide)), whole, bound]

theorem parseUsize_toDigits {number : Nat} (bound : number ≤ usizeMax) :
    parseUsize (Nat.toDigits 10 number) = some number := by
  have read := foldl_pushDigit_toDigits bound
  unfold parseUsize
  cases digits : Nat.toDigits 10 number with
  | nil => exact absurd digits Nat.toDigits_ne_nil
  | cons first rest =>
      have member : first ∈ Nat.toDigits 10 number := by
        rw [digits]
        exact .head _
      have isDigit := Nat.isDigit_of_mem_toDigits (by decide) (by decide) member
      have noPlus : '+' ≠ first := by
        intro same
        rw [← same] at isDigit
        cases isDigit
      rw [stripPrefix_of_head_ne noPlus, ← digits]
      simpa [digits] using read

end Zyndeck.Str
