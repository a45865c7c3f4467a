/-!
# Cutting text

Text is worked on as a list of characters.  `splitOn2` cuts at every occurrence of a separator of two characters, the
leftmost first; `takeBytes?` cuts by bytes of the UTF-8 form and refuses to cut inside a character.
-/
namespace Introspect
namespace Text

/-- The number of bytes of the UTF-8 form. -/
def byteLength (cs : List Char) : Nat := cs.foldr (fun c n => c.utf8Size + n) 0

/-- The pieces between the separators `x y`; there is one more of them than there are separators. -/
def splitOn2 (x y : Char) : List Char → List (List Char)
  | [] => [[]]
  | [c] => [[c]]
  | c :: d :: cs =>
    if c = x ∧ d = y then [] :: splitOn2 x y cs
    else match splitOn2 x y (d :: cs) with
      | [] => [[c]]
      | piece :: rest => (c :: piece) :: rest

def splitOn1 {α : Type} [DecidableEq α] (x : α) : List α → List (List α)
  | [] => [[]]
  | c :: cs =>
    if c = x then [] :: splitOn1 x cs
    else match splitOn1 x cs with
      | [] => [[c]]
      | piece :: rest => (c :: piece) :: rest

def splitOnce? (x : Char) : List Char → Option (List Char × List Char)
  | [] => none
  | c :: cs =>
    if c = x then some ([], cs)
    else (splitOnce? x cs).map fun (before, after) => (c :: before, after)

/-- The characters that make up the first `n` bytes, and the rest; `none` where the text is shorter or the cut falls
inside a character. -/
def takeBytes? : Nat → List Char → Option (List Char × List Char)
  | 0, cs => some ([], cs)
  | _ + 1, [] => none
  | n + 1, c :: cs =>
    if c.utf8Size ≤ n + 1 then
      (takeBytes? (n + 1 - c.utf8Size) cs).map fun (taken, rest) => (c :: taken, rest)
    else none

def stripStart? : List Char → List Char → Option (List Char)
  | [], cs => some cs
  | _ :: _, [] => none
  | p :: ps, c :: cs => if p = c then stripStart? ps cs else none

def joinWith (sep : List Char) : List (List Char) → List Char
  | [] => []
  | [piece] => piece
  | piece :: rest => piece ++ sep ++ joinWith sep rest

def contains (part : List Char) : List Char → Bool
  | [] => part.isEmpty
  | c :: cs => (stripStart? part (c :: cs)).isSome || contains part cs

theorem takeBytes?_eq_some_append {n : Nat} {cs taken rest : List Char} (h : takeBytes? n cs = some (taken, rest)) :
    cs = taken ++ rest ∧ byteLength taken = n := by
  fun_induction takeBytes? n cs generalizing taken rest with
  | case1 => simp_all [byteLength]
  | case2 => simp at h
  | case3 n c cs hc ih =>
    obtain ⟨⟨t, r⟩, ht, he⟩ := Option.map_eq_some_iff.1 h
    simp only [Prod.mk.injEq] at he
    obtain ⟨rfl, rfl⟩ := he
    obtain ⟨h1, h2⟩ := ih ht
    refine ⟨by rw [h1]; rfl, ?_⟩
    simp only [byteLength, List.foldr_cons] at h2 ⊢
    omega
  | case4 => simp at h

theorem length_lt_of_takeBytes? {n : Nat} {cs taken rest : List Char} (hn : n ≠ 0)
    (h : takeBytes? n cs = some (taken, rest)) : rest.length < cs.length := by
  obtain ⟨rfl, hb⟩ := takeBytes?_eq_some_append h
  cases taken with
  | nil => exact absurd hb.symm hn
  | cons c t => simp only [List.cons_append, List.length_cons, List.length_append]; omega

end Text
end Introspect
