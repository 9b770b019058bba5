import Mathlib.Data.List.TakeWhile
import Wildpath.Proofs.Pieces

/-!
# Where a component is at fault

A text that is no component has a class or a set that cannot be read: it is not closed, one of its
ranges runs backwards, or it holds another set. Reading stops at the first of them, after pieces that
are read on their own.
-/

set_option autoImplicit false

namespace Wildpath

namespace Text

variable {stop : Char} {s : Text}

theorem dropWhile_eq_nil_iff : s.dropWhile (· ≠ stop) = [] ↔ stop ∉ s := by
  rw [List.dropWhile_eq_nil_iff]
  constructor
  · intro clean member
    simpa using clean stop member
  · intro clean c member
    exact decide_eq_true (ne_of_mem_of_not_mem member clean)

theorem eq_append_of_mem (member : stop ∈ s) :
    ∃ after, s = s.takeWhile (· ≠ stop) ++ stop :: after := by
  cases ended : s.dropWhile (· ≠ stop) with
  | nil => exact absurd member (dropWhile_eq_nil_iff.mp ended)
  | cons c after => exact ⟨after, eq_append_of_dropWhile ended⟩

theorem takeWhile_of_notMem (clean : stop ∉ s) : s.takeWhile (· ≠ stop) = s := by
  have whole := @List.takeWhile_append_dropWhile _ (· ≠ stop) s
  rwa [dropWhile_eq_nil_iff.mpr clean, List.append_nil] at whole

theorem takeWhile_append_of_notMem (clean : stop ∉ s) (rest : Text) :
    (s ++ rest).takeWhile (· ≠ stop) = s ++ rest.takeWhile (· ≠ stop) := by
  rw [List.takeWhile_append_of_pos]
  intro c member
  exact decide_eq_true (ne_of_mem_of_not_mem member clean)

end Text

namespace Pattern

/-- The first characters of a class, with what follows them. None of their ranges runs backwards. -/
inductive Forward (rest : Text) : Text → Prop where
  | nil : Forward rest []
  | span {low high : Char} {items : Text} : low ≤ high → Forward rest items →
    Forward rest (low :: '-' :: high :: items)
  | single {c : Char} {items : Text} : (∀ high after, items ++ rest ≠ '-' :: high :: after) →
    Forward rest items → Forward rest (c :: items)

/-- The mark that inverts a class, or nothing where there is none. -/
def Marks (mark inner : Text) : Prop := (Bracket.inversion (mark ++ inner)).2 = inner

/-- The text begins with a class or a set that cannot be read, because of what stands at the place. -/
inductive Broken : Text → Fault.Kind → Nat → Prop where
  | unterminatedClass {mark inner : Text} {ranges : List (Char × Char)} : Marks mark inner →
    WrittenRanges inner ranges → ']' ∉ inner.tail →
    Broken ('[' :: (mark ++ inner)) .unterminatedClass 0
  | reversedRange {mark items rest : Text} {low high : Char} :
    Marks mark (items ++ [low, '-', high] ++ rest) → Forward [low, '-', high] items →
    ']' ∉ (items ++ [low, '-', high]).tail → high < low →
    Broken ('[' :: (mark ++ (items ++ [low, '-', high] ++ rest))) (.reversedRange low high)
      (1 + mark.length + items.length)
  | unterminatedSet {rest : Text} : '}' ∉ rest → Broken ('{' :: rest) .unterminatedSet 0
  | nestedSet {body rest : Text} : '{' ∉ body → '}' ∉ body → '}' ∈ rest →
    Broken ('{' :: (body ++ '{' :: rest)) .nestedSet (1 + body.length)

section Ranges

variable {items rest : Text} {low high : Char}

/-- Only the two characters that follow decide where the last of the items ends. -/
theorem Forward.extend (h : Forward [low, '-', high] items) (more : Text) :
    Forward ([low, '-', high] ++ more) items := by
  induction h with
  | nil => exact .nil
  | span ordered _ ih => exact .span ordered ih
  | @single c items apart _ ih =>
    refine .single ?_ ih
    intro high' after same
    match items with
    | [] => exact apart high' [high] (by simp_all)
    | [d] => exact apart high' ['-', high] (by simp_all)
    | d :: e :: items => exact apart high' (items ++ [low, '-', high]) (by simp_all)

theorem located_append (h : Forward rest items) (position : Nat) :
    ∃ own, (∀ r ∈ own, r.2.1 ≤ r.2.2) ∧ Bracket.located position (items ++ rest) =
      own ++ Bracket.located (position + items.length) rest := by
  induction h generalizing position with
  | nil => exact ⟨[], by simp, rfl⟩
  | @span low high items ordered _ ih =>
    obtain ⟨own, forwards, same⟩ := ih (position + 3)
    refine ⟨(position, low, high) :: own, List.forall_mem_cons.mpr ⟨ordered, forwards⟩, ?_⟩
    simp only [List.cons_append, Bracket.located, same, List.length_cons]
    congr 3
    omega
  | @single c items apart _ ih =>
    obtain ⟨own, forwards, same⟩ := ih (position + 1)
    refine ⟨(position, c, c) :: own, List.forall_mem_cons.mpr ⟨Char.le_refl c, forwards⟩, ?_⟩
    rw [List.cons_append, Bracket.located, same, List.length_cons]
    · simp only [List.cons_append]
      congr 3
      omega
    · exact apart

theorem backward_eq_none_iff {located : List (Nat × Char × Char)} :
    located.find? (fun r => r.2.2 < r.2.1) = none ↔ ∀ r ∈ located, r.2.1 ≤ r.2.2 := by
  simp [List.find?_eq_none]

/-- The first range that runs backwards has none before it that does. -/
theorem backward_eq_some_iff {position place : Nat} {body : Text} :
    (Bracket.located position body).find? (fun r => r.2.2 < r.2.1) = some (place, low, high) ↔
      ∃ items rest, body = items ++ [low, '-', high] ++ rest ∧ Forward [low, '-', high] items ∧
        high < low ∧ place = position + items.length := by
  constructor
  · intro found
    fun_induction Bracket.located position body with
    | case1 => simp at found
    | case2 position low' high' rest ih =>
      rw [List.find?_cons] at found
      split at found
      · next backwards =>
        cases found
        exact ⟨[], rest, rfl, .nil, of_decide_eq_true backwards, rfl⟩
      · next forwards =>
        obtain ⟨items, rest, whole, before, backwards, rfl⟩ := ih found
        subst whole
        have forwards : ¬ high' < low' := of_decide_eq_false forwards
        refine ⟨low' :: '-' :: high' :: items, rest, rfl, .span (Char.not_lt.mp forwards) before,
          backwards, ?_⟩
        simp only [List.length_cons]
        omega
    | case3 position c rest other ih =>
      have forwards : ¬ c < c := Char.not_lt.mpr (Char.le_refl c)
      simp only [List.find?_cons, forwards, decide_false] at found
      obtain ⟨items, rest, rfl, before, backwards, rfl⟩ := ih found
      refine ⟨c :: items, rest, rfl, .single ?_ before, backwards, ?_⟩
      · intro high' after same
        refine other high' (after ++ rest) ?_
        rw [← List.cons_append, ← List.cons_append, ← same]
      · simp only [List.length_cons]
        omega
  · intro h
    obtain ⟨items, rest, rfl, before, backwards, rfl⟩ := h
    obtain ⟨own, forwards, same⟩ := located_append (before.extend rest) position
    rw [List.append_assoc, same, List.find?_append, backward_eq_none_iff.mpr forwards,
      Option.none_or]
    exact List.find?_cons_of_pos (decide_eq_true backwards)

end Ranges

theorem split_eq_none_iff {s body : Text} :
    Bracket.split s = (body, none) ↔ body = s ∧ ']' ∉ s.tail := by
  cases s with
  | nil => simp [Bracket.split, eq_comm]
  | cons first rest =>
    simp only [Bracket.split, List.tail_cons]
    constructor
    · intro h
      split at h
      · next ended =>
        have clean := Text.dropWhile_eq_nil_iff.mp ended
        cases h
        exact ⟨by rw [Text.takeWhile_of_notMem clean], clean⟩
      · cases h
    · intro h
      obtain ⟨rfl, clean⟩ := h
      rw [Text.dropWhile_eq_nil_iff.mpr clean, Text.takeWhile_of_notMem clean]

/-- A body is what stands before the bracket that closes it, or everything. -/
theorem split_fst {s body : Text} {after : Option Text} (h : Bracket.split s = (body, after)) :
    ∃ rest, s = body ++ rest ∧ ']' ∉ body.tail := by
  cases after with
  | none =>
    obtain ⟨rfl, clean⟩ := split_eq_none_iff.mp h
    exact ⟨[], (List.append_nil body).symm, clean⟩
  | some rest =>
    obtain ⟨whole, -, clean⟩ := split_eq_some_iff.mp h
    exact ⟨_, whole, clean⟩

theorem split_append {front : Text} (filled : front ≠ []) (clean : ']' ∉ front.tail) (rest : Text) :
    ∃ more after, Bracket.split (front ++ rest) = (front ++ more, after) := by
  cases front with
  | nil => exact absurd rfl filled
  | cons first front =>
    rw [List.tail_cons] at clean
    refine ⟨rest.takeWhile (· ≠ ']'), (Bracket.split (first :: front ++ rest)).2, Prod.ext ?_ rfl⟩
    simp only [List.cons_append, Bracket.split, Text.takeWhile_append_of_notMem clean]

theorem exists_marks (s : Text) : ∃ mark inner, s = mark ++ inner ∧ Marks mark inner := by
  rcases inversion_cases s with ⟨mark, rest, -, rfl, inversion⟩ | ⟨-, -, inversion⟩
  · exact ⟨[mark], rest, rfl, congrArg Prod.snd inversion⟩
  · exact ⟨[], s, rfl, congrArg Prod.snd inversion⟩

theorem readClass_eq_error_iff_split {mark inner body : Text} {after : Option Text}
    (marks : Marks mark inner) (split : Bracket.split inner = (body, after)) {position p : Nat}
    {kind : Fault.Kind} : readClass position (mark ++ inner) = .error (kind, p) ↔
      (∃ low high, kind = .reversedRange low high ∧
        (Bracket.located (position + 1 + mark.length) body).find? (fun r => r.2.2 < r.2.1) =
          some (p, low, high)) ∨
      ((∀ r ∈ Bracket.located (position + 1 + mark.length) body, r.2.1 ≤ r.2.2) ∧
        after = none ∧ kind = .unterminatedClass ∧ p = position) := by
  have taken : (mark ++ inner).length - inner.length = mark.length := by simp
  simp only [readClass, ← backward_eq_none_iff]
  rw [show (Bracket.inversion (mark ++ inner)).2 = inner from marks, split, taken]
  simp only
  generalize (Bracket.located (position + 1 + mark.length) body).find? _ = first
  cases first with
  | some offence =>
    obtain ⟨place, low, high⟩ := offence
    constructor
    · intro h
      cases h
      exact Or.inl ⟨low, high, rfl, rfl⟩
    · intro h
      rcases h with ⟨low, high, rfl, same⟩ | ⟨none, -⟩
      · cases same
        rfl
      · cases none
  | none =>
    cases after with
    | some rest => simp
    | none => simp [eq_comm]

/-- Reading a class fails exactly where it is broken. -/
theorem readClass_eq_error_iff {position : Nat} {s : Text} {kind : Fault.Kind} {p : Nat} :
    readClass position s = .error (kind, p) ↔
      ∃ place, Broken ('[' :: s) kind place ∧ p = position + place := by
  constructor
  · intro h
    obtain ⟨mark, inner, rfl, marks⟩ := exists_marks s
    cases split : Bracket.split inner with
    | mk body after =>
      rcases (readClass_eq_error_iff_split marks split).mp h with
        ⟨low, high, rfl, found⟩ | ⟨forwards, rfl, rfl, rfl⟩
      · obtain ⟨items, rest, rfl, before, backwards, rfl⟩ := backward_eq_some_iff.mp found
        obtain ⟨more, rfl, clean⟩ := split_fst split
        rw [List.append_assoc _ rest more] at marks ⊢
        refine ⟨1 + mark.length + items.length, .reversedRange marks before ?_ backwards, by omega⟩
        rw [List.tail_append_of_ne_nil (by simp)] at clean
        exact fun member => clean (List.mem_append_left rest member)
      · obtain ⟨rfl, clean⟩ := split_eq_none_iff.mp split
        have written := (writtenRanges_iff _).mpr ⟨forwards, rfl⟩
        exact ⟨0, .unterminatedClass marks written clean, rfl⟩
  · intro h
    obtain ⟨place, broken, rfl⟩ := h
    generalize starts : '[' :: s = t at broken
    cases broken with
    | unterminatedClass marks written clean =>
      cases starts
      obtain ⟨forwards, -⟩ := (writtenRanges_iff (position + 1 + _)).mp written
      exact (readClass_eq_error_iff_split marks (split_eq_none_iff.mpr ⟨rfl, clean⟩)).mpr
        (Or.inr ⟨forwards, rfl, rfl, rfl⟩)
    | @reversedRange mark items rest low high marks before clean backwards =>
      cases starts
      obtain ⟨more, after, split⟩ := split_append (by simp) clean rest
      have found := (@backward_eq_some_iff low high (position + 1 + mark.length) _ _).mpr
        ⟨items, more, rfl, before, backwards, rfl⟩
      rw [readClass_eq_error_iff_split marks split, ← Nat.add_assoc, ← Nat.add_assoc]
      exact Or.inl ⟨low, high, rfl, found⟩
    | unterminatedSet => cases starts
    | nestedSet => cases starts

/-- Reading a set fails exactly where it is broken. -/
theorem readSet_eq_error_iff {position : Nat} {s : Text} {kind : Fault.Kind} {p : Nat} :
    readSet position s = .error (kind, p) ↔
      ∃ place, Broken ('{' :: s) kind place ∧ p = position + place := by
  constructor
  · intro h
    simp only [readSet] at h
    split at h
    · next opened =>
      cases h
      exact ⟨0, .unterminatedSet (Text.dropWhile_eq_nil_iff.mp opened), rfl⟩
    · next c after ended =>
      split at h
      · next nested =>
        cases h
        have whole := Text.eq_append_of_dropWhile ended
        have unclosed := Text.notMem_takeWhile '}' s
        generalize s.takeWhile (· ≠ '}') = body at whole nested unclosed ⊢
        have flat := Text.notMem_takeWhile '{' body
        obtain ⟨more, nested⟩ := Text.eq_append_of_mem (List.mem_of_elem_eq_true nested)
        generalize body.takeWhile (· ≠ '{') = first at flat nested ⊢
        subst nested whole
        rw [List.append_assoc]
        refine ⟨1 + first.length, .nestedSet flat ?_ (by simp), Nat.add_assoc ..⟩
        exact fun member => unclosed (List.mem_append_left _ member)
      · cases h
  · intro h
    obtain ⟨place, broken, rfl⟩ := h
    generalize starts : '{' :: s = t at broken
    cases broken with
    | unterminatedClass => cases starts
    | reversedRange => cases starts
    | unterminatedSet clean =>
      cases starts
      simp only [readSet, Text.dropWhile_eq_nil_iff.mpr clean]
      rfl
    | @nestedSet body rest flat unclosed closed =>
      cases starts
      obtain ⟨more, closed⟩ := Text.eq_append_of_mem closed
      have unclosed' := Text.notMem_takeWhile '}' rest
      generalize rest.takeWhile (· ≠ '}') = inside at closed unclosed'
      subst closed
      have clean : '}' ∉ body ++ '{' :: inside := by simp [unclosed, unclosed']
      have whole : body ++ '{' :: (inside ++ '}' :: more) =
          (body ++ '{' :: inside) ++ '}' :: more := by simp
      have nested : (body ++ '{' :: inside).contains '{' = true := by simp
      rw [whole]
      simp only [readSet, Text.takeWhile_append_stop clean, Text.dropWhile_append_stop clean,
        nested, Text.takeWhile_append_stop flat]
      rw [if_true, Nat.add_assoc]

theorem Broken.ne_nil {tail : Text} {kind : Fault.Kind} {place : Nat} (h : Broken tail kind place) :
    tail ≠ [] := by
  cases h <;> simp

theorem Broken.place_lt {tail : Text} {kind : Fault.Kind} {place : Nat}
    (h : Broken tail kind place) : place < tail.length := by
  cases h <;> simp <;> omega

theorem readClass_append {position : Nat} {inner rest : Text} {cls : CharClass}
    (h : readClass position inner = .ok (cls, rest)) (tail : Text) :
    readClass position (inner ++ tail) = .ok (cls, rest ++ tail) := by
  obtain ⟨body, rfl, written⟩ := readClass_eq_ok_iff.mp h
  exact readClass_eq_ok_iff.mpr ⟨body, List.append_assoc .., written⟩

theorem readSet_append {position : Nat} {inner rest : Text} {items : List Text}
    (h : readSet position inner = .ok (items, rest)) (tail : Text) :
    readSet position (inner ++ tail) = .ok (items, rest ++ tail) := by
  obtain ⟨body, rfl, written⟩ := readSet_eq_ok_iff.mp h
  exact readSet_eq_ok_iff.mpr ⟨body, List.append_assoc .., written⟩

/-- The position behind a class or a set counts all that it took. -/
theorem length_behind {position : Nat} {inner rest : Text} (c : Char)
    (shorter : rest.length < inner.length) :
    position + 1 + (inner.length - rest.length) + rest.length = position + (c :: inner).length := by
  rw [List.length_cons]
  omega

/-- What is accepted does not keep reading from the fault behind it. -/
theorem readPieces_append {position : Nat} {front : Text} {pieces : List Pattern}
    (h : readPieces position front = .ok pieces) {tail : Text} {fault : Fault.Kind × Nat}
    (refused : readPieces (position + front.length) tail = .error fault) :
    readPieces position (front ++ tail) = .error fault := by
  fun_induction readPieces position front generalizing pieces with
  | case1 => exact refused
  | case2 position rest ih =>
    obtain ⟨later, read, -⟩ := map_eq_ok_iff.mp h
    rw [List.cons_append, readPieces, map_eq_error_iff]
    refine ih read ?_
    rwa [Nat.add_assoc, Nat.add_comm 1]
  | case3 position rest ih =>
    obtain ⟨later, read, -⟩ := map_eq_ok_iff.mp h
    rw [List.cons_append, readPieces, map_eq_error_iff]
    refine ih read ?_
    rwa [Nat.add_assoc, Nat.add_comm 1]
  | case4 => cases h
  | case5 position inner cls rest own _ ih =>
    obtain ⟨later, read, -⟩ := map_eq_ok_iff.mp h
    rw [List.cons_append, readPieces_class, readClass_append own, bind_eq_error_iff]
    refine Or.inr ⟨_, rfl, map_eq_error_iff.mpr ?_⟩
    rw [List.length_append, List.length_append, Nat.add_sub_add_right]
    refine ih read ?_
    rwa [length_behind _ (length_of_readClass own)]
  | case6 => cases h
  | case7 position inner items rest own _ ih =>
    obtain ⟨later, read, -⟩ := map_eq_ok_iff.mp h
    rw [List.cons_append, readPieces_set, readSet_append own, bind_eq_error_iff]
    refine Or.inr ⟨_, rfl, map_eq_error_iff.mpr ?_⟩
    rw [List.length_append, List.length_append, Nat.add_sub_add_right]
    refine ih read ?_
    rwa [length_behind _ (length_of_readSet own)]
  | case8 position c rest notStar notAny notClass notSet ih =>
    obtain ⟨later, read, -⟩ := map_eq_ok_iff.mp h
    rw [List.cons_append, readPieces, map_eq_error_iff]
    · refine ih read ?_
      rwa [Nat.add_assoc, Nat.add_comm 1]
    all_goals assumption

theorem readPieces_of_broken {position : Nat} {tail : Text} {kind : Fault.Kind} {place : Nat}
    (h : Broken tail kind place) : readPieces position tail = .error (kind, position + place) := by
  have starts : (∃ s, tail = '[' :: s) ∨ ∃ s, tail = '{' :: s := by
    cases h with
    | unterminatedClass | reversedRange => exact Or.inl ⟨_, rfl⟩
    | unterminatedSet | nestedSet => exact Or.inr ⟨_, rfl⟩
  rcases starts with ⟨s, rfl⟩ | ⟨s, rfl⟩
  · rw [readPieces_class, bind_eq_error_iff]
    exact Or.inl (readClass_eq_error_iff.mpr ⟨place, h, rfl⟩)
  · rw [readPieces_set, bind_eq_error_iff]
    exact Or.inl (readSet_eq_error_iff.mpr ⟨place, h, rfl⟩)

/-- Reading a component fails at the first class or set that is broken. -/
theorem readPieces_eq_error_iff {position : Nat} {s : Text} {kind : Fault.Kind} {p : Nat} :
    readPieces position s = .error (kind, p) ↔ ∃ front pieces tail place, s = front ++ tail ∧
      WrittenPieces front pieces ∧ Broken tail kind place ∧
      p = position + (front.length + place) := by
  constructor
  · intro h
    fun_induction readPieces position s with
    | case1 => cases h
    | case2 position rest ih =>
      obtain ⟨front, pieces, tail, place, rfl, written, broken, rfl⟩ := ih (map_eq_error_iff.mp h)
      refine ⟨'*' :: front, _, tail, place, rfl, written.consStar, broken, ?_⟩
      rw [List.length_cons]
      omega
    | case3 position rest ih =>
      obtain ⟨front, pieces, tail, place, rfl, written, broken, rfl⟩ := ih (map_eq_error_iff.mp h)
      refine ⟨'?' :: front, _, tail, place, rfl, .anyChar written, broken, ?_⟩
      rw [List.length_cons]
      omega
    | case4 position inner fault refused =>
      cases h
      obtain ⟨place, broken, rfl⟩ := readClass_eq_error_iff.mp refused
      exact ⟨[], [], _, place, rfl, .nil, broken, by simp⟩
    | case5 position inner cls rest own _ ih =>
      obtain ⟨front, pieces, tail, place, rfl, written, broken, rfl⟩ := ih (map_eq_error_iff.mp h)
      obtain ⟨body, rfl, inside⟩ := readClass_eq_ok_iff.mp own
      refine ⟨'[' :: (body ++ ']' :: front), _, tail, place, by simp, .charClass inside written,
        broken, ?_⟩
      simp only [List.length_cons, List.length_append]
      omega
    | case6 position inner fault refused =>
      cases h
      obtain ⟨place, broken, rfl⟩ := readSet_eq_error_iff.mp refused
      exact ⟨[], [], _, place, rfl, .nil, broken, by simp⟩
    | case7 position inner items rest own _ ih =>
      obtain ⟨front, pieces, tail, place, rfl, written, broken, rfl⟩ := ih (map_eq_error_iff.mp h)
      obtain ⟨body, rfl, inside⟩ := readSet_eq_ok_iff.mp own
      refine ⟨'{' :: (body ++ '}' :: front), _, tail, place, by simp, .oneOf inside written,
        broken, ?_⟩
      simp only [List.length_cons, List.length_append]
      omega
    | case8 position c rest notStar notAny notClass notSet ih =>
      obtain ⟨front, pieces, tail, place, rfl, written, broken, rfl⟩ := ih (map_eq_error_iff.mp h)
      have plain : isPlain c = true := by
        simp only [isPlain, Bool.and_eq_true, bne_iff_ne]
        exact ⟨⟨⟨notStar, notAny⟩, notClass⟩, notSet⟩
      refine ⟨c :: front, _, tail, place, rfl, written.consChar plain, broken, ?_⟩
      rw [List.length_cons]
      omega
  · intro h
    obtain ⟨front, pieces, tail, place, rfl, written, broken, rfl⟩ := h
    rw [← Nat.add_assoc]
    exact readPieces_append (readPieces_of_written written position) (readPieces_of_broken broken)

end Pattern
end Wildpath
