import Mathlib.Data.List.Basic

/-!
# What a directory package leaves out

A rule is a pattern of characters. One with a slash inside is matched against the path from the
root, one without against every name on it, and a slash at the end asks for a directory. What a
pattern means is said by the pieces of the path that its parts take, one behind another.
-/
namespace Cavs.Ignore

section Code

/-- The matcher: it tries every length that a star may take. -/
def globRec : List Char → List Char → Bool
  | [], t => t.isEmpty
  | '*' :: '*' :: '/' :: rest, t => (List.range (t.length + 1)).any fun i => globRec rest (t.drop i)
  | '*' :: '*' :: rest, t => (List.range (t.length + 1)).any fun i => globRec rest (t.drop i)
  | '*' :: rest, t =>
      ((List.range (t.length + 1)).takeWhile fun i => i = 0 || t[i - 1]? ≠ some '/').any fun i =>
        globRec rest (t.drop i)
  | '?' :: rest, t => match t with
    | [] => false
    | x :: t => x ≠ '/' && globRec rest t
  | c :: rest, t => match t with
    | [] => false
    | x :: t => x = c && globRec rest t

def globMatch (pattern text : List Char) : Bool := globRec pattern text

/-- Does the path lie under a directory that matches? -/
def prefixDirMatch (pattern rel : List Char) : Bool :=
  ((List.range rel.length).filter fun i => rel[i]? = some '/').any fun i => globMatch pattern (rel.take i)

/-- A pattern without the slash at its end, and whether there was one. -/
def stripSlash (pattern : List Char) : List Char × Bool :=
  if pattern.getLast? = some '/' then (pattern.dropLast, true) else (pattern, false)

/-- A rule for directories on names: the last name has to be one. -/
def nameDirMatch (pattern : List Char) (segments : List (List Char)) (isDir : Bool) : Bool :=
  (List.range segments.length).any fun i =>
    match segments[i]? with
    | some seg => globMatch pattern seg && (i ≠ segments.length - 1 || isDir)
    | none => false

def patternMatches (pattern rel : List Char) (isDir : Bool) : Bool :=
  let (pattern, dirOnly) := stripSlash pattern
  if pattern = [] then false
  else if dirOnly then
    if '/' ∈ pattern then (isDir && globMatch pattern rel) || prefixDirMatch pattern rel
    else nameDirMatch pattern (rel.splitOn '/') isDir
  else if '/' ∈ pattern then globMatch pattern rel
  else (rel.splitOn '/').any fun seg => globMatch pattern seg

/-- `.cavsignore` -/
def ignoreFile : List Char := ['.', 'c', 'a', 'v', 's', 'i', 'g', 'n', 'o', 'r', 'e']

/-- The rules of a call and those of the file at the root. -/
structure IgnoreRules where
  patterns : List (List Char)

def IgnoreRules.matches (rules : IgnoreRules) (rel : List Char) (isDir : Bool) : Bool :=
  rel = ignoreFile || rules.patterns.any fun p => patternMatches p rel isDir

/-- What is packed of the entries of a walk, which are paths and whether they are directories. -/
def packed (rules : IgnoreRules) (entries : List (List Char × Bool)) : List (List Char × Bool) :=
  entries.filter fun e => !rules.matches e.1 e.2

end Code

section Meaning

variable {before : List Char} {toks : List Token} {t : List Char}

/-- The parts of a pattern. -/
inductive Token where
  | segments
  | anything
  | run
  | one
  | char (c : Char)
  deriving DecidableEq, Repr

def tokens : List Char → List Token
  | [] => []
  | '*' :: '*' :: '/' :: rest => .segments :: tokens rest
  | '*' :: '*' :: rest => .anything :: tokens rest
  | '*' :: rest => .run :: tokens rest
  | '?' :: rest => .one :: tokens rest
  | c :: rest => .char c :: tokens rest

/-- What a part may take of a path, behind what stands before. Whole segments begin where one
begins and end behind a slash. -/
def Token.Takes (before piece : List Char) : Token → Prop
  | .segments => piece = [] ∨
      ((before = [] ∨ before.getLast? = some '/') ∧ piece.getLast? = some '/')
  | .anything => True
  | .run => '/' ∉ piece
  | .one => ∃ c, c ≠ '/' ∧ piece = [c]
  | .char c => piece = [c]

/-- The parts take a text, one behind another. -/
inductive Reads : (before : List Char) → List Token → List Char → Prop
  | done (before : List Char) : Reads before [] []
  | take {before piece rest : List Char} {tok : Token} {toks : List Token} (takes : tok.Takes before piece)
      (more : Reads (before ++ piece) toks rest) : Reads before (tok :: toks) (piece ++ rest)

/-- What a pattern means. -/
def Means (pattern path : List Char) : Prop := Reads [] (tokens pattern) path

/-- A part that takes whole segments, read as one that takes anything. -/
def Token.loosen : Token → Token
  | .segments => .anything
  | tok => tok

/-- What a pattern means when its segments need not be whole. -/
def MeansLoosely (pattern path : List Char) : Prop := Reads [] ((tokens pattern).map Token.loosen) path

/-- A run is given to a part for whole segments that begins or ends inside of one, and what
stands behind is read as it is meant; what stands before may have taken such runs as well. -/
inductive Slips : (before : List Char) → List Token → List Char → Prop
  | here {before piece rest : List Char} {toks : List Token} (inside : ¬ Token.segments.Takes before piece)
      (reads : Reads (before ++ piece) toks rest) : Slips before (.segments :: toks) (piece ++ rest)
  | later {before piece rest : List Char} {tok : Token} {toks : List Token} (takes : tok.loosen.Takes before piece)
      (slips : Slips (before ++ piece) toks rest) : Slips before (tok :: toks) (piece ++ rest)

theorem reads_nil : Reads before [] t ↔ t = [] := by
  constructor
  · intro h
    cases h
    rfl
  · rintro rfl
    exact .done before

theorem reads_cons {tok : Token} :
    Reads before (tok :: toks) t ↔ ∃ piece rest, t = piece ++ rest ∧ tok.Takes before piece ∧
      Reads (before ++ piece) toks rest := by
  constructor
  · intro h
    cases h with
    | take takes more => exact ⟨_, _, rfl, takes, more⟩
  · rintro ⟨piece, rest, rfl, takes, more⟩
    exact .take takes more

theorem Reads.loosen (h : Reads before toks t) :
    Reads before (toks.map Token.loosen) t := by
  induction h with
  | done before => exact .done before
  | @take before piece rest tok toks takes more ih =>
      refine .take ?_ ih
      cases tok with
      | segments => trivial
      | _ => exact takes

theorem Slips.loosen (h : Slips before toks t) :
    Reads before (toks.map Token.loosen) t := by
  induction h with
  | here _ reads => exact .take trivial reads.loosen
  | later takes _ ih => exact .take takes ih

/-- A text that is read loosely is read as it is meant, or a part slips on it. -/
theorem reads_loosen_iff :
    Reads before (toks.map Token.loosen) t ↔ Reads before toks t ∨ Slips before toks t := by
  constructor
  · intro h
    induction toks generalizing before t with
    | nil => exact .inl h
    | cons tok toks ih =>
        obtain ⟨piece, rest, rfl, takes, more⟩ := reads_cons.mp h
        rcases ih more with reads | slips
        · by_cases whole : tok.Takes before piece
          · exact .inl (.take whole reads)
          · cases tok with
            | segments => exact .inr (.here whole reads)
            | anything | run | one | char => exact absurd takes whole
        · exact .inr (.later takes slips)
  · rintro (reads | slips)
    · exact reads.loosen
    · exact slips.loosen

/-- Only a part for whole segments slips. -/
theorem Slips.segments (h : Slips before toks t) : .segments ∈ toks := by
  induction h with
  | here => exact .head _
  | later _ _ ih => exact .tail _ ih

/-- What ends in a part that takes anything reads on. -/
theorem Reads.longer (ends : toks.getLast? = some .anything) (h : Reads before toks t) (more : List Char) :
    Reads before toks (t ++ more) := by
  induction h with
  | done => cases ends
  | @take before piece rest tok toks takes reads ih =>
      cases toks with
      | nil =>
          obtain rfl : tok = .anything := Option.some.inj ends
          obtain rfl := reads_nil.mp reads
          have all : Reads before [.anything] (piece ++ more ++ []) := .take trivial (.done _)
          simpa using all
      | cons next toks =>
          rw [List.append_assoc]
          exact .take takes (ih (by rwa [List.getLast?_cons_cons] at ends))

end Meaning

section Matcher

variable {f : List Char → Bool} {t : List Char}

theorem any_drop :
    ((List.range (t.length + 1)).any fun i => f (t.drop i)) = true ↔ ∃ piece rest, t = piece ++ rest ∧ f rest = true := by
  rw [List.any_eq_true]
  constructor
  · rintro ⟨i, -, holds⟩
    exact ⟨t.take i, t.drop i, (List.take_append_drop i t).symm, holds⟩
  · rintro ⟨piece, rest, rfl, holds⟩
    refine ⟨piece.length, List.mem_range.mpr (by rw [List.length_append]; omega), ?_⟩
    rwa [List.drop_left]

theorem mem_takeWhile_range {p : Nat → Bool} {n i : Nat} :
    i ∈ (List.range n).takeWhile p ↔ i < n ∧ ∀ j ≤ i, p j = true := by
  rw [List.takeWhile_eq_take_findIdx_not, List.take_range, List.mem_range, Nat.lt_min, List.lt_findIdx_iff]
  constructor
  · rintro ⟨⟨_, clear⟩, small⟩
    refine ⟨small, fun j le => ?_⟩
    simpa using clear j le
  · rintro ⟨small, holds⟩
    refine ⟨⟨by rwa [List.length_range], fun j le => ?_⟩, small⟩
    simpa using holds j le

/-- A run stops before the first slash. -/
theorem any_run :
    (((List.range (t.length + 1)).takeWhile fun i => i = 0 || t[i - 1]? ≠ some '/').any fun i => f (t.drop i)) = true ↔
      ∃ piece rest, t = piece ++ rest ∧ '/' ∉ piece ∧ f rest = true := by
  rw [List.any_eq_true]
  constructor
  · rintro ⟨i, mem, holds⟩
    obtain ⟨small, clear⟩ := mem_takeWhile_range.mp mem
    refine ⟨t.take i, t.drop i, (List.take_append_drop i t).symm, fun slash => ?_, holds⟩
    obtain ⟨j, less, here⟩ := List.mem_iff_getElem.mp slash
    have before : j < i := Nat.lt_of_lt_of_le less (List.length_take_le i t)
    have := clear (j + 1) before
    rw [List.getElem_take] at here
    rw [Nat.add_sub_cancel, List.getElem?_eq_getElem (by rw [List.length_take] at less; omega), here] at this
    simp at this
  · rintro ⟨piece, rest, rfl, clear, holds⟩
    refine ⟨piece.length, mem_takeWhile_range.mpr ⟨by rw [List.length_append]; omega, fun j le => ?_⟩, ?_⟩
    · cases j with
      | zero => rfl
      | succ j =>
          have other : piece[j] ≠ '/' := fun same => clear (same ▸ List.getElem_mem le)
          rw [Nat.add_sub_cancel, List.getElem?_append_left le, List.getElem?_eq_getElem le]
          simp [other]
    · rwa [List.drop_left]

/-- The matcher decides the loose meaning. -/
theorem globRec_iff (p t before : List Char) :
    globRec p t = true ↔ Reads before ((tokens p).map Token.loosen) t := by
  fun_induction tokens p generalizing t before with
  | case1 => rw [globRec, List.isEmpty_iff, List.map_nil, reads_nil]
  | case2 rest ih =>
      rw [globRec, any_drop, List.map_cons, reads_cons]
      refine exists_congr fun piece => exists_congr fun s => and_congr_right fun _ => ?_
      rw [ih s (before ++ piece)]
      exact ⟨fun more => ⟨trivial, more⟩, And.right⟩
  | case3 rest other ih =>
      rw [globRec, any_drop, List.map_cons, reads_cons]
      · refine exists_congr fun piece => exists_congr fun s => and_congr_right fun _ => ?_
        rw [ih s (before ++ piece)]
        exact ⟨fun more => ⟨trivial, more⟩, And.right⟩
      · exact other
  | case4 rest other many ih =>
      rw [globRec, any_run, List.map_cons, reads_cons]
      · refine exists_congr fun piece => exists_congr fun s => and_congr_right fun _ => ?_
        rw [ih s (before ++ piece)]
        rfl
      · exact other
      · exact many
  | case5 rest ih =>
      rw [List.map_cons, reads_cons]
      cases t with
      | nil =>
          refine iff_of_false (by rw [globRec]; exact Bool.false_ne_true) ?_
          rintro ⟨piece, s, whole, ⟨x, -, rfl⟩, -⟩
          cases whole
      | cons x t =>
          rw [globRec, Bool.and_eq_true, ih t (before ++ [x]), decide_eq_true_iff]
          constructor
          · rintro ⟨other, more⟩
            exact ⟨[x], t, rfl, ⟨x, other, rfl⟩, more⟩
          · rintro ⟨piece, s, whole, ⟨y, other, rfl⟩, more⟩
            cases whole
            exact ⟨other, more⟩
  | case6 c rest not_segments not_anything not_run not_one ih =>
      rw [List.map_cons, reads_cons]
      cases t with
      | nil =>
          refine iff_of_false (by rw [globRec] <;> first | exact Bool.false_ne_true | assumption) ?_
          rintro ⟨piece, s, whole, rfl, -⟩
          cases whole
      | cons x t =>
          rw [globRec]
          · rw [Bool.and_eq_true, ih t (before ++ [x]), decide_eq_true_iff]
            constructor
            · rintro ⟨rfl, more⟩
              exact ⟨[x], t, rfl, rfl, more⟩
            · rintro ⟨piece, s, whole, rfl, more⟩
              cases whole
              exact ⟨rfl, more⟩
          all_goals assumption

end Matcher

section Rules
variable {pattern body d q rel : List Char} {isDir : Bool}

theorem globMatch_iff {path : List Char} : globMatch pattern path = true ↔ MeansLoosely pattern path :=
  globRec_iff pattern path []

/-- What a rule asks of a path, in terms of the meaning of its pattern. -/
def Asks (pattern rel : List Char) (isDir : Bool) : Prop :=
  let (body, dirOnly) := stripSlash pattern
  body ≠ [] ∧
    if '/' ∈ body then
      if dirOnly then
        (isDir = true ∧ MeansLoosely body rel) ∨ ∃ above below, rel = above ++ '/' :: below ∧ MeansLoosely body above
      else MeansLoosely body rel
    else if dirOnly then
      ∃ above name below, rel.splitOn '/' = above ++ name :: below ∧ MeansLoosely body name ∧ (below ≠ [] ∨ isDir = true)
    else ∃ name ∈ rel.splitOn '/', MeansLoosely body name

theorem prefixDirMatch_iff : prefixDirMatch body rel = true ↔
    ∃ above below, rel = above ++ '/' :: below ∧ MeansLoosely body above := by
  rw [prefixDirMatch, List.any_eq_true]
  constructor
  · rintro ⟨i, mem, holds⟩
    obtain ⟨small, slash⟩ := List.mem_filter.mp mem
    have small := List.mem_range.mp small
    rw [decide_eq_true_iff, List.getElem?_eq_getElem small, Option.some.injEq] at slash
    refine ⟨rel.take i, rel.drop (i + 1), ?_, globMatch_iff.mp holds⟩
    rw [← slash, ← List.drop_eq_getElem_cons small, List.take_append_drop]
  · rintro ⟨above, below, rfl, holds⟩
    refine ⟨above.length, List.mem_filter.mpr ⟨List.mem_range.mpr (by simp), by simp⟩, ?_⟩
    rw [List.take_left]
    exact globMatch_iff.mpr holds

theorem nameDirMatch_iff {names : List (List Char)} : nameDirMatch body names isDir = true ↔
    ∃ above name below, names = above ++ name :: below ∧ MeansLoosely body name ∧ (below ≠ [] ∨ isDir = true) := by
  rw [nameDirMatch, List.any_eq_true]
  constructor
  · rintro ⟨i, mem, holds⟩
    have small := List.mem_range.mp mem
    rw [List.getElem?_eq_getElem small] at holds
    obtain ⟨glob, place⟩ := Bool.and_eq_true_iff.mp holds
    refine ⟨names.take i, names[i], names.drop (i + 1), ?_, globMatch_iff.mp glob, ?_⟩
    · rw [← List.drop_eq_getElem_cons small, List.take_append_drop]
    · rcases Bool.or_eq_true_iff.mp place with inner | dir
      · refine .inl fun none_ => ?_
        have := List.drop_eq_nil_iff.mp none_
        have := of_decide_eq_true inner
        omega
      · exact .inr dir
  · rintro ⟨above, name, below, rfl, holds, place⟩
    refine ⟨above.length, List.mem_range.mpr (by simp), ?_⟩
    rw [List.getElem?_append_right (Nat.le_refl _), Nat.sub_self]
    refine Bool.and_eq_true_iff.mpr ⟨globMatch_iff.mpr holds, ?_⟩
    rcases place with inner | dir
    · have := List.length_pos_iff.mpr inner
      simp only [List.length_append, List.length_cons, Bool.or_eq_true, decide_eq_true_iff]
      omega
    · rw [dir, Bool.or_true]

theorem patternMatches_iff : patternMatches pattern rel isDir = true ↔ Asks pattern rel isDir := by
  rw [patternMatches, Asks]
  generalize stripSlash pattern = parts
  obtain ⟨body, dirOnly⟩ := parts
  dsimp only
  by_cases empty : body = []
  · rw [if_pos empty]
    exact iff_of_false Bool.false_ne_true fun h => h.1 empty
  · rw [if_neg empty, and_iff_right empty]
    cases dirOnly with
    | true =>
        simp only [if_true]
        by_cases anchored : '/' ∈ body
        · rw [if_pos anchored, if_pos anchored, Bool.or_eq_true, Bool.and_eq_true, globMatch_iff, prefixDirMatch_iff]
        · rw [if_neg anchored, if_neg anchored, nameDirMatch_iff]
    | false =>
        simp only [Bool.false_eq_true, if_false]
        by_cases anchored : '/' ∈ body
        · rw [if_pos anchored, if_pos anchored, globMatch_iff]
        · rw [if_neg anchored, if_neg anchored, List.any_eq_true]
          exact exists_congr fun name => and_congr_right fun _ => globMatch_iff

/-- A path under a directory. -/
def below (d q : List Char) : List Char := d ++ '/' :: q

/-- A rule on names, one with a slash at its end, or one that ends in `**`. -/
def Inherits (pattern : List Char) : Prop :=
  (stripSlash pattern).2 = true ∨ '/' ∉ (stripSlash pattern).1 ∨ (tokens (stripSlash pattern).1).getLast? = some .anything

/-- What such a rule asks for takes everything under it along. -/
theorem Inherits.below (shape : Inherits pattern) (asked : Asks pattern d true) (q : List Char) (isDir : Bool) :
    Asks pattern (below d q) isDir := by
  have names : (Ignore.below d q).splitOn '/' = d.splitOn '/' ++ q.splitOn '/' := List.splitOn_append_cons_self d q
  rw [Inherits] at shape
  rw [Asks] at asked ⊢
  generalize stripSlash pattern = parts at shape asked ⊢
  obtain ⟨body, dirOnly⟩ := parts
  dsimp only at shape asked ⊢
  obtain ⟨some_, asked⟩ := asked
  refine ⟨some_, ?_⟩
  by_cases anchored : '/' ∈ body
  · rw [if_pos anchored] at asked ⊢
    cases dirOnly with
    | true =>
        right
        rcases asked with ⟨-, here⟩ | ⟨above, rest, rfl, here⟩
        · exact ⟨d, q, rfl, here⟩
        · exact ⟨above, rest ++ '/' :: q, by rw [Ignore.below, List.append_assoc, List.cons_append], here⟩
    | false =>
        have ends := (shape.resolve_left Bool.false_ne_true).resolve_left (not_not_intro anchored)
        exact Reads.longer (by rw [List.getLast?_map, ends]; rfl) asked _
  · rw [if_neg anchored] at asked ⊢
    cases dirOnly with
    | true =>
        obtain ⟨above, name, rest, split, here, -⟩ := asked
        refine ⟨above, name, rest ++ q.splitOn '/', ?_, here, .inl ?_⟩
        · rw [names, split, List.append_assoc, List.cons_append]
        · simp [List.splitOn_ne_nil]
    | false =>
        obtain ⟨name, mem, here⟩ := asked
        exact ⟨name, names ▸ List.mem_append_left _ mem, here⟩

end Rules

section Theorem
variable {rules : IgnoreRules} {d q rel : List Char} {isDir : Bool}

/-- An ignored directory takes the path under it along. -/
def TakesAlong (rules : IgnoreRules) (d q : List Char) (isDir : Bool) : Prop :=
  rules.matches d true = true → rules.matches (below d q) isDir = true

/-- A rule that asks for the directory takes along what is under it, or every one that asks for it does. -/
def PassedOn (rules : IgnoreRules) (d : List Char) : Prop :=
  (∃ p ∈ rules.patterns, Inherits p ∧ Asks p d true) ∨
    d ≠ ignoreFile ∧ ∀ p ∈ rules.patterns, Asks p d true → Inherits p

/-- No file is packed below a directory that was ignored. -/
def PacksNoneBelow (rules : IgnoreRules) (entries : List (List Char × Bool)) : Prop :=
  ∀ d q, (d, true) ∈ entries → (d, true) ∉ packed rules entries → (below d q, false) ∉ packed rules entries

theorem matches_iff : rules.matches rel isDir = true ↔ rel = ignoreFile ∨ ∃ p ∈ rules.patterns, Asks p rel isDir := by
  rw [IgnoreRules.matches, Bool.or_eq_true, decide_eq_true_iff, List.any_eq_true]
  exact or_congr_right (exists_congr fun p => and_congr_right fun _ => patternMatches_iff)

theorem PassedOn.takesAlong (passed : PassedOn rules d) (q : List Char) (isDir : Bool) : TakesAlong rules d q isDir := by
  intro asked
  refine matches_iff.mpr (.inr ?_)
  obtain ⟨p, mem, shape, here⟩ : ∃ p ∈ rules.patterns, Inherits p ∧ Asks p d true := by
    rcases passed with some_ | ⟨other, all⟩
    · exact some_
    · obtain ⟨p, mem, here⟩ := (matches_iff.mp asked).resolve_left other
      exact ⟨p, mem, all p mem here, here⟩
  exact ⟨p, mem, shape.below here q isDir⟩

theorem mem_packed {entries : List (List Char × Bool)} :
    (rel, isDir) ∈ packed rules entries ↔ (rel, isDir) ∈ entries ∧ rules.matches rel isDir ≠ true := by
  rw [packed, List.mem_filter, Bool.not_eq_true', ne_eq, Bool.not_eq_true]

/-- `**/b.log` -/
def anyLog : List Char := ['*', '*', '/', 'b', '.', 'l', 'o', 'g']

/-- `build/*` -/
def buildRule : IgnoreRules := ⟨[['b', 'u', 'i', 'l', 'd', '/', '*']]⟩

/-- `build/**` -/
def deepRule : IgnoreRules := ⟨[['b', 'u', 'i', 'l', 'd', '/', '*', '*']]⟩

end Theorem
end Cavs.Ignore
