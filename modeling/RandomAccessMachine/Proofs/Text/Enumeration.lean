import RandomAccessMachine.Proofs.Text.Signed

/-!
# Enumerations

An enumeration writes items one after the other, with a comma and a blank
between neighbours. The items are found again if none of them contains a comma
or is written as nothing: `Enumeration.unique` says that an enumeration of
such items can be read in one way only.

## Implementation notes

How an item is written is a parameter, a relation of characters and what they
stand for, so that numbers and pairs of numbers are enumerated alike. It may
allow several spellings of one item. Only what is read has to be unique.
-/

namespace RandomAccessMachine

section FirstSeparator

variable {c : Char} {a b s t : List Char}

theorem takeWhile_append_cons_of_notMem (h : c ∉ a) (s : List Char) :
    (a ++ c :: s).takeWhile (· != c) = a := by
  have hfront : ∀ d ∈ a, (d != c) = true := by
    intro d hd
    rw [bne_iff_ne]
    rintro rfl
    exact h hd
  rw [List.takeWhile_append_of_pos hfront, List.takeWhile_cons_of_neg (by simp), List.append_nil]

/-- What stands on both sides of the first separator is found again. -/
theorem append_cons_inj_of_first (ha : c ∉ a) (hb : c ∉ b) (h : a ++ c :: s = b ++ c :: t) :
    a = b ∧ s = t := by
  have hfront : a = b :=
    calc a = (a ++ c :: s).takeWhile (· != c) := (takeWhile_append_cons_of_notMem ha s).symm
      _ = (b ++ c :: t).takeWhile (· != c) := by rw [h]
      _ = b := takeWhile_append_cons_of_notMem hb t
  subst hfront
  exact ⟨rfl, (List.cons.inj (List.append_cancel_left h)).2⟩

end FirstSeparator

variable {α : Type} {Item : List Char → α → Prop}

/-- Items with a comma and a blank between neighbours. -/
inductive Enumeration (Item : List Char → α → Prop) : List Char → List α → Prop
  | empty : Enumeration Item [] []
  | last {text : List Char} {x : α} (h : Item text x) : Enumeration Item text [x]
  | before {text rest : List Char} {x y : α} {ys : List α} (h : Item text x)
      (hrest : Enumeration Item rest (y :: ys)) :
      Enumeration Item (text ++ ',' :: ' ' :: rest) (x :: y :: ys)

/-- Items that are found again where they are enumerated. -/
structure Enumerable (Item : List Char → α → Prop) : Prop where
  unique : ∀ {text x y}, Item text x → Item text y → x = y
  ne_nil : ∀ {text x}, Item text x → text ≠ []
  comma_notMem : ∀ {text x}, Item text x → ',' ∉ text

/-- Items without commas can be read from their enumeration in one way only. -/
theorem Enumeration.unique (hitem : Enumerable Item) {text : List Char} {xs ys : List α}
    (h : Enumeration Item text xs) (h' : Enumeration Item text ys) : xs = ys := by
  -- the second enumeration is taken apart along with the first one, item by item
  generalize htext : text = text' at h'
  induction h generalizing text' ys with
  | empty =>
      cases h' with
      | empty => rfl
      | last h' => exact absurd htext.symm (hitem.ne_nil h')
      | before => simp at htext
  | last h =>
      cases h' with
      | empty => exact absurd htext (hitem.ne_nil h)
      | last h' =>
          subst htext
          rw [hitem.unique h h']
      | before => exact absurd (by simp [htext]) (hitem.comma_notMem h)
  | before h _ ih =>
      cases h' with
      | empty => simp at htext
      | last h' => exact absurd (by simp [← htext]) (hitem.comma_notMem h')
      | before h' hrest' =>
          obtain ⟨rfl, hrest⟩ :=
            append_cons_inj_of_first (hitem.comma_notMem h) (hitem.comma_notMem h') htext
          rw [hitem.unique h h', ih _ (List.cons.inj hrest).2 hrest']

/-- The texts of items are enumerated by joining them. -/
theorem Enumeration.join {spell : α → String} (h : ∀ x, Item (spell x).toList x) (xs : List α) :
    Enumeration Item (", ".intercalate (xs.map spell)).toList xs := by
  induction xs with
  | nil => exact .empty
  | cons x xs ih =>
      cases xs with
      | nil => simpa using Enumeration.last (h x)
      | cons y ys => simpa [String.intercalate_cons_cons] using Enumeration.before (h x) ih

/-- An enumeration between two characters. -/
def Enclosed (Item : List Char → α → Prop) (opening closing : Char) (text : String)
    (xs : List α) : Prop :=
  ∃ body, text.toList = opening :: (body ++ [closing]) ∧ Enumeration Item body xs

theorem Enclosed.unique (hitem : Enumerable Item) {opening closing : Char} {text : String}
    {xs ys : List α} (h : Enclosed Item opening closing text xs)
    (h' : Enclosed Item opening closing text ys) : xs = ys := by
  obtain ⟨body, htext, hbody⟩ := h
  obtain ⟨body', htext', hbody'⟩ := h'
  have hsame : body ++ [closing] = body' ++ [closing] :=
    (List.cons.inj (htext.symm.trans htext')).2
  exact hbody.unique hitem (List.append_cancel_right hsame ▸ hbody')

end RandomAccessMachine
