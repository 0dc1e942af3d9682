/-
  Reshape.Proofs.Path.Rounds — normalizing a path by cutting bytes off its front.

  A path is brought into its strict spelling in rounds. Each looks at how the rest of the text
  begins, goes over a segment character by character to find the byte at which it ends, and cuts the
  text there. Much could go wrong on a text that is no path: a cut inside a character or behind the
  end, a bracket closed that was never opened, a round that cuts nothing off and so never ends. Here
  the rounds are spelled out in bytes, and fail if any of this happens; `normalize`, which goes by
  characters, says what they come to.

  - `closingByte?_eq`: with a bracket open, the scan never closes one too many, and the byte it ends
    at is the one behind the bracketed segment.
  - `round?_ofList`: a round succeeds, leaves less than there was, and writes what `normalize` has
    for what it took off.
  - `rounds_safe`: so do all rounds, on every text there is.
-/

import Reshape.Path.Loose
import Reshape.Proofs.Text.Cuts

namespace Reshape.Path

/-! ## Where segments end -/

/-- The byte behind the bracket that closes the scan, which has come to this byte; the end of the text if none
    closes it. Nothing if a bracket closes while none is open. -/
def closingByte? (s : BracketScan) (byte : Nat) : List Char → Option Nat
  | [] => some byte
  | c :: rest =>
    if s.quote = none ∧ c = ']' ∧ s.depth = 0 then none
    else if (s.step c).closed c then some (byte + 1)
    else closingByte? (s.step c) (byte + c.utf8Size) rest

def bracketEnd? (text : String) : Option Nat := closingByte? ⟨0, none⟩ 0 text.toList

/-- The byte at which a dotted name ends, of which the characters up to this byte are known. -/
def nameEndFrom (byte : Nat) : List Char → Nat
  | [] => byte
  | c :: rest => if endsName c then byte else nameEndFrom (byte + c.utf8Size) rest

def nameEnd (text : String) : Nat := nameEndFrom 0 text.toList

/-! ## Rounds -/

def writeMember (dot : List Char) (name : String) : String := String.ofList (memberChars dot name.toList)

/-- One round: what it writes, and what it leaves of the text. Nothing if it cuts where there is no place to cut, or
    closes a bracket that is not open. What is no segment is written as it is, and nothing is left of it. -/
def round? (text : String) : Option (String × String) :=
  match text.toList with
  | '[' :: _ => (bracketEnd? text).bind fun byte => cutAt? text byte
  | '.' :: '.' :: _ =>
    (cutAt? text 2).bind fun (dots, behind) =>
      if behind.toList.head? = some '[' then some (dots, behind)
      else (cutAt? behind (nameEnd behind)).map fun (name, left) => (dots ++ writeMember [] name, left)
  | '.' :: _ =>
    (cutAt? text 1).bind fun (_, behind) =>
      (cutAt? behind (nameEnd behind)).map fun (name, left) => (writeMember ['.'] name, left)
  | _ => some (text, "")

/-- Round after round until nothing is left; nothing if one of them fails, or if so many are not enough. -/
def runRounds? : Nat → String → Option String
  | 0, text => if text = "" then some "" else none
  | rounds + 1, text =>
    if text = "" then some ""
    else (round? text).bind fun (written, left) => (runRounds? rounds left).map fun more => written ++ more

def behindMarker? (path : String) : Option String :=
  match path.toList with
  | '$' :: _ => (cutAt? path 1).map fun (_, behind) => behind
  | '@' :: _ => (cutAt? path 1).map fun (_, behind) => behind
  | [] => some path
  | '[' :: _ => some path
  | '.' :: _ => some path
  | _ => some ("." ++ path)

/-- The strict query that a path stands for, in no more rounds than the path has bytes behind its marker. -/
def normalizeRounds? (path : String) : Option String :=
  (behindMarker? (String.ofList (trimBlank path.toList))).bind fun text =>
    (runRounds? text.utf8ByteSize text).map fun written => "$" ++ written

/-! ## The bytes that are found -/

/-- Where no bracket closes the scan, one is open still. -/
theorem BracketScan.depth_step_pos {s : BracketScan} {c : Char} (h : 0 < s.depth)
    (hc : ¬ (s.step c).closed c = true) : 0 < (s.step c).depth := by
  obtain ⟨depth, quote⟩ := s
  cases quote with
  | some q =>
    obtain ⟨q, escaped⟩ := q
    cases escaped <;> simp only [step] <;> (repeat' split) <;> exact h
  | none =>
    simp only [step] at hc ⊢
    split
    · exact h
    split
    · exact Nat.succ_pos depth
    split
    · rename_i hclose
      subst hclose
      have hleft : depth - 1 ≠ 0 := by simpa [closed] using hc
      exact Nat.pos_of_ne_zero hleft
    · exact h

/-- With a bracket open, the scan never closes one too many. It ends at the byte behind the bracketed segment. -/
theorem closingByte?_eq {s : BracketScan} (h : 0 < s.depth) (byte : Nat) (text : List Char) :
    closingByte? s byte text = some (byte + byteCount (splitBracketFrom s text).1) := by
  induction text generalizing s byte with
  | nil => rfl
  | cons c rest ih =>
    have hopen : ¬ (s.quote = none ∧ c = ']' ∧ s.depth = 0) := fun e => by omega
    rw [closingByte?, splitBracketFrom, if_neg hopen]
    by_cases hc : (s.step c).closed c = true
    · have hclose : c = ']' := by
        simp only [BracketScan.closed, Bool.and_eq_true, beq_iff_eq] at hc
        exact hc.1.2
      rw [if_pos hc, if_pos hc, hclose]
      rfl
    · rw [if_neg hc, if_neg hc, ih (BracketScan.depth_step_pos h hc), byteCount_cons, Nat.add_assoc]

/-- The scan that begins with an opening bracket goes over the bracketed segment. -/
theorem bracketEnd?_ofList (rest : List Char) :
    bracketEnd? (String.ofList ('[' :: rest)) = some (byteCount (splitBracket ('[' :: rest)).1) := by
  have hstep : BracketScan.step ⟨0, none⟩ '[' = ⟨1, none⟩ := rfl
  have hopen : ¬ BracketScan.closed ⟨1, none⟩ '[' = true := by decide
  rw [bracketEnd?, String.toList_ofList, closingByte?, if_neg (by decide), hstep, if_neg hopen,
    closingByte?_eq Nat.one_pos, splitBracket, splitBracketFrom, hstep, if_neg hopen, byteCount_cons, Nat.zero_add]

theorem nameEndFrom_eq (byte : Nat) (text : List Char) :
    nameEndFrom byte text = byte + byteCount (splitName text).1 := by
  induction text generalizing byte with
  | nil => rfl
  | cons c rest ih =>
    rw [nameEndFrom, splitName]
    cases hc : endsName c with
    | true => simp [hc]
    | false =>
      rw [if_neg Bool.false_ne_true, ih, List.takeWhile_cons, hc]
      simp [splitName, Nat.add_assoc]

/-! ## The cuts that are made -/

theorem splitBracket_append (text : List Char) : (splitBracket text).1 ++ (splitBracket text).2 = text :=
  splitBracketFrom_append ⟨0, none⟩ text

theorem splitName_append_rest (text : List Char) : (splitName text).1 ++ (splitName text).2 = text :=
  List.takeWhile_append_dropWhile

theorem cutAt?_bracketEnd (rest : List Char) :
    ((bracketEnd? (String.ofList ('[' :: rest))).bind fun byte => cutAt? (String.ofList ('[' :: rest)) byte) =
      some (String.ofList (splitBracket ('[' :: rest)).1, String.ofList (splitBracket ('[' :: rest)).2) := by
  have hcut := cutAt?_ofList (splitBracket ('[' :: rest)).1 (splitBracket ('[' :: rest)).2
  rw [splitBracket_append] at hcut
  rw [bracketEnd?_ofList, Option.bind_some, hcut]

theorem cutAt?_nameEnd (text : List Char) :
    cutAt? (String.ofList text) (nameEnd (String.ofList text)) =
      some (String.ofList (splitName text).1, String.ofList (splitName text).2) := by
  have hcut := cutAt?_ofList (splitName text).1 (splitName text).2
  rw [splitName_append_rest] at hcut
  rw [nameEnd, String.toList_ofList, nameEndFrom_eq, Nat.zero_add, hcut]

/-- At least the bracket itself is cut off. -/
theorem byteCount_splitBracket_pos (rest : List Char) : 0 < byteCount (splitBracket ('[' :: rest)).1 := by
  have hbracket : 0 < ('[' : Char).utf8Size := Char.utf8Size_pos _
  rw [splitBracket, splitBracketFrom]
  split
  · exact Nat.lt_add_right _ hbracket
  · exact byteCount_cons _ _ ▸ Nat.lt_add_right _ hbracket

theorem byteCount_splitBracket (text : List Char) :
    byteCount (splitBracket text).1 + byteCount (splitBracket text).2 = byteCount text := by
  rw [← byteCount_append, splitBracket_append]

theorem byteCount_splitName (text : List Char) :
    byteCount (splitName text).1 + byteCount (splitName text).2 = byteCount text := by
  rw [← byteCount_append, splitName_append_rest]

/-! ## Round after round -/

/-- A round on a text that is not empty succeeds. It leaves less than there was, and writes what the strict spelling
    has for what it took off. -/
theorem round?_ofList {text : List Char} (h : text ≠ []) : ∃ written left,
    round? (String.ofList text) = some (String.ofList written, String.ofList left) ∧
      byteCount left < byteCount text ∧ normalizeSegments text = written ++ normalizeSegments left := by
  have hdot : ('.' : Char).utf8Size = 1 := rfl
  fun_cases normalizeSegments text with
  | case1 => exact absurd rfl h
  | case2 rest =>
    have hpos := byteCount_splitBracket_pos rest
    have hcount := byteCount_splitBracket ('[' :: rest)
    refine ⟨(splitBracket ('[' :: rest)).1, (splitBracket ('[' :: rest)).2, ?_, by omega, rfl⟩
    simp only [round?, String.toList_ofList]
    exact cutAt?_bracketEnd rest
  | case3 rest =>
    have hcut : cutAt? (String.ofList ('.' :: '.' :: '[' :: rest)) 2 = some (String.ofList ['.', '.'], _) :=
      cutAt?_ofList ['.', '.'] ('[' :: rest)
    refine ⟨['.', '.'], '[' :: rest, ?_, by simp only [byteCount_cons]; omega, rfl⟩
    simp only [round?, String.toList_ofList, hcut, Option.bind_some, List.head?_cons, if_true]
  | case4 rest hbracket =>
    have hcut : cutAt? (String.ofList ('.' :: '.' :: rest)) 2 = some (String.ofList ['.', '.'], _) :=
      cutAt?_ofList ['.', '.'] rest
    have hhead : rest.head? ≠ some '[' := fun e => by
      obtain ⟨more, rfl⟩ := List.head?_eq_some_iff.mp e
      exact hbracket more rfl
    have hcount := byteCount_splitName rest
    refine ⟨'.' :: '.' :: memberChars [] (splitName rest).1, (splitName rest).2, ?_,
      by simp only [byteCount_cons]; omega, rfl⟩
    simp only [round?, String.toList_ofList, hcut, Option.bind_some, if_neg hhead, cutAt?_nameEnd, Option.map_some,
      writeMember, ← String.ofList_append]
    rfl
  | case5 rest hdots hname =>
    have hcut : cutAt? (String.ofList ('.' :: rest)) 1 = some (String.ofList ['.'], _) := cutAt?_ofList ['.'] rest
    have hcount := byteCount_splitName rest
    refine ⟨memberChars ['.'] (splitName rest).1, (splitName rest).2, ?_, by simp only [byteCount_cons]; omega, rfl⟩
    rw [round?, String.toList_ofList]
    split
    case h_3 => simp only [hcut, Option.bind_some, cutAt?_nameEnd, Option.map_some, writeMember, String.toList_ofList]
    case h_2 behind e => exact absurd (List.cons.inj e).2 (hname behind)
    all_goals simp_all
  | case6 _ _ hbracket _ hdots hname =>
    refine ⟨text, [], ?_, ?_, ?_⟩
    · rw [round?, String.toList_ofList]
      split
      case h_4 => rfl
      case h_1 => exact absurd rfl (hbracket _)
      case h_2 => exact absurd rfl (hdots _)
      case h_3 => exact absurd rfl (hname _)
    · obtain ⟨c, rest, rfl⟩ := List.exists_cons_of_ne_nil h
      exact byteCount_cons c rest ▸ Nat.lt_add_right _ c.utf8Size_pos
    · rw [normalizeSegments, List.append_nil]

/-- Rounds end when nothing is left, and have then written what the strict spelling has for the whole text. There
    are no more of them than the text has bytes. -/
theorem runRounds?_ofList {rounds : Nat} {text : List Char} (h : byteCount text ≤ rounds) :
    runRounds? rounds (String.ofList text) = some (String.ofList (normalizeSegments text)) := by
  induction rounds generalizing text with
  | zero =>
    obtain rfl : text = [] := by
      rw [← utf8ByteSize_ofList, Nat.le_zero, String.utf8ByteSize_eq_zero_iff] at h
      exact String.ofList_eq_empty_iff.mp h
    rw [normalizeSegments]
    rfl
  | succ rounds ih =>
    by_cases hnil : text = []
    · subst hnil
      rw [runRounds?, if_pos rfl, normalizeSegments]
    · obtain ⟨written, left, hround, hless, hwritten⟩ := round?_ofList hnil
      have hne : String.ofList text ≠ "" := fun e => hnil (String.ofList_eq_empty_iff.mp e)
      have hleft : runRounds? rounds (String.ofList left) = some (String.ofList (normalizeSegments left)) :=
        ih (by omega)
      simp only [runRounds?, if_neg hne, hround, Option.bind_some, hleft, Option.map_some, hwritten,
        String.ofList_append]

theorem behindMarker?_ofList (path : List Char) :
    behindMarker? (String.ofList path) = some (String.ofList (withoutMarker path)) := by
  rw [behindMarker?, String.toList_ofList]
  fun_cases withoutMarker path with
  | case1 rest => exact congrArg (Option.map _) (cutAt?_ofList ['$'] rest)
  | case2 rest => exact congrArg (Option.map _) (cutAt?_ofList ['@'] rest)
  | case3 => rfl
  | case4 rest => rfl
  | case5 rest => rfl
  | case6 _ hdollar hat hnil hbracket hdot =>
    split
    case h_6 => exact congrArg some (@String.ofList_append ['.'] _).symm
    case h_1 => exact absurd rfl (hdollar _)
    case h_2 => exact absurd rfl (hat _)
    case h_3 => exact absurd rfl hnil
    case h_4 => exact absurd rfl (hbracket _)
    case h_5 => exact absurd rfl (hdot _)

theorem normalizeRounds?_eq (path : String) :
    normalizeRounds? path = some (String.ofList (normalize path.toList)) := by
  rw [normalizeRounds?, behindMarker?_ofList, Option.bind_some, utf8ByteSize_ofList, runRounds?_ofList (Nat.le_refl _),
    Option.map_some]
  exact congrArg some (@String.ofList_append ['$'] _).symm

/-- On every text, however malformed, a path is normalized round after round, with nothing going wrong: as long as
    something is left, a round succeeds in all its cuts and leaves less; the rounds come to an end, and to the strict
    query; a dotted name ends at a place where the text can be cut; and the scan of a text that begins with an opening
    bracket never closes one too many, and ends at such a place too, behind the bracket and within the text. -/
theorem rounds_safe :
    (∀ text : String, text ≠ "" →
      ∃ written left, round? text = some (written, left) ∧ left.utf8ByteSize < text.utf8ByteSize) ∧
    (∀ path : String, normalizeRounds? path = some (String.ofList (normalize path.toList))) ∧
    (∀ text : String, (⟨nameEnd text⟩ : String.Pos.Raw).IsValid text) ∧
    ∀ text : String, text.toList.head? = some '[' → ∃ byte, bracketEnd? text = some byte ∧ 1 ≤ byte ∧
      byte ≤ text.utf8ByteSize ∧ (⟨byte⟩ : String.Pos.Raw).IsValid text := by
  refine ⟨fun text h => ?_, normalizeRounds?_eq, fun text => ?_, fun text h => ?_⟩
  · have hne : text.toList ≠ [] := fun e => h (String.toList_eq_nil_iff.mp e)
    obtain ⟨written, left, hround, hless, -⟩ := round?_ofList hne
    rw [String.ofList_toList] at hround
    rw [← utf8ByteSize_ofList, ← utf8ByteSize_ofList, String.ofList_toList] at hless
    exact ⟨_, _, hround, hless⟩
  · have hcut := cutAt?_nameEnd text.toList
    rw [String.ofList_toList] at hcut
    exact isSome_cutAt?_iff.mp (Option.isSome_of_eq_some hcut)
  · obtain ⟨rest, hrest⟩ := List.head?_eq_some_iff.mp h
    obtain rfl : String.ofList ('[' :: rest) = text := by rw [← hrest, String.ofList_toList]
    have hcut := cutAt?_bracketEnd rest
    rw [bracketEnd?_ofList, Option.bind_some] at hcut
    have hpos := byteCount_splitBracket_pos rest
    have hcount := byteCount_splitBracket ('[' :: rest)
    rw [utf8ByteSize_ofList]
    exact ⟨_, bracketEnd?_ofList rest, hpos, by omega, isSome_cutAt?_iff.mp (Option.isSome_of_eq_some hcut)⟩

/-- Two dots and a name without end, a bracket that stays open, letters of several bytes beside delimiters. -/
example : normalizeRounds? " é..日[ü" = some "$['é']..['日'][ü" ∧ bracketEnd? "[ü" = some 3 := by decide +kernel

end Reshape.Path
