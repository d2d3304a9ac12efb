import Mathlib
import RandomAccessMachine.Proofs.Assembly.LineNumbers
import RandomAccessMachine.Proofs.Assembly.Recovery

/-!
# Every line that is read ends once

A cursor holds nothing, or the rest of a line up to its only line feed. So the
characters that it takes one after the other never run out, and the calls for
a line that is read report its lexemes, of which only the last one is the end
of the line. The ends of lines that have been found are counted by the number
of the line.

## Implementation notes

`Lexeme.first?` pops its characters one at a time, and it is `none` as soon as
there is none to pop. `next?` is `next` with it, so it shows where a cursor
would need what a line does not hold.
-/

namespace RandomAccessMachine

namespace Lexeme

variable {p : Char → Bool} {line : List Char}

/-- Pop the characters of a class, behind those popped before, up to the first other character. -/
def popRun? (p : Char → Bool) (run : List Char) : List Char → Option (List Char × List Char)
  | [] => none
  | c :: rest => if p c then popRun? p (run ++ [c]) rest else some (run, c :: rest)

/-- Pop the first lexeme of a line, unless the characters run out on the way. -/
def first? : List Char → Option (Lexeme × List Char)
  | [] => none
  | c :: rest =>
      match Token.ofSymbol? c with
      | some t => some (.token t, rest)
      | none =>
          if c = '#' then some (.token .newline, [])
          else if isBlank c then first? rest
          else if c.isDigit then
            (popRun? Char.isDigit [c] rest).map fun (digits, tail) => number digits tail
          else if c.isAlpha then
            (popRun? Char.isAlpha [c] rest).map fun (letters, tail) => name letters tail
          else some (.fault (.invalidSymbol c), rest)

/-- A character outside of the class ends the run that is popped. -/
theorem popRun?_of_mem {d : Char} (hp : p d = false) (h : d ∈ line) (run : List Char) :
    popRun? p run line = some (run ++ line.takeWhile p, line.dropWhile p) := by
  induction line generalizing run with
  | nil => simp at h
  | cons c rest ih =>
      cases hc : p c with
      | true =>
          have hrest : d ∈ rest := by
            obtain rfl | hrest := List.mem_cons.mp h
            · simp [hp] at hc
            · exact hrest
          simp [popRun?, hc, ih hrest]
      | false => simp [popRun?, hc]

/-- The characters of a line with a line feed do not run out. -/
theorem first?_of_mem (h : '\n' ∈ line) : first? line = some (first line) := by
  have htail {c : Char} {rest : List Char} (h : '\n' ∈ c :: rest)
      (hs : Token.ofSymbol? c = none) : '\n' ∈ rest :=
    (List.mem_cons.mp h).resolve_left (Token.ofSymbol?_eq_none_iff.mp hs).1.symm
  fun_induction first line with
  | case1 => simp at h
  | case2 c rest t hs => simp [first?, hs]
  | case3 rest hs => simp [first?, hs]
  | case4 c rest hs hcomment hblank ih => simp [first?, hs, hcomment, hblank, ih (htail h hs)]
  | case5 c rest hs hcomment hblank hdigit =>
      simp [first?, hs, hcomment, hblank, hdigit,
        popRun?_of_mem (p := Char.isDigit) (by decide) (htail h hs)]
  | case6 c rest hs hcomment hblank hdigit halpha =>
      simp [first?, hs, hcomment, hblank, hdigit, halpha,
        popRun?_of_mem (p := Char.isAlpha) (by decide) (htail h hs)]
  | case7 c rest hs hcomment hblank hdigit halpha =>
      simp [first?, hs, hcomment, hblank, hdigit, halpha]

/-- Without its line feed a line ends too early for the number in it. -/
example : first? ['('] = some (.token .leftParen, []) ∧ first? ['4', '2'] = none := by decide

end Lexeme

namespace Cursor

variable {c : Cursor}

/-- Report the next token or fault, unless the characters of its line run out on the way. -/
def next? (c : Cursor) : Option (Option Finding × Cursor) :=
  match c.fill with
  | (.error reason, c) => some (some ⟨c.lineNr + 1, .fault (.unreadable reason)⟩, c)
  | (.ok (), c) =>
      if c.ended then some (none, c)
      else
        (Lexeme.first? c.line).map fun (l, rest) =>
          (some ⟨c.lineNr, l⟩, { c with line := rest })

/-- The findings of this many calls, whatever they report. -/
def found (c : Cursor) : Nat → List Finding
  | 0 => []
  | n + 1 => c.next.1.toList ++ c.next.2.found n

/-- The calls up to a first report of the end, where this many lines have been read before. A call
reports the end, or a line that cannot be read, or it reads a line. In the last case the calls up to
the end of this line follow. They read nothing, and together they find lexemes of which only
the last one is the end of the line. -/
inductive CallsByLine : Nat → List Call → Prop
  | ended {n : Nat} {call : Call} (hopened : call.before.opened? = none)
      (hfinding : call.finding = none) : CallsByLine n [call]
  | failed {n : Nat} {call : Call} {reason : String} {later : List Call}
      (hopened : call.before.opened? = none)
      (hfinding : call.finding = some ⟨n + 1, .fault (.unreadable reason)⟩)
      (rest : CallsByLine n later) : CallsByLine n (call :: later)
  | line {n : Nat} {first : Call} {others later : List Call} {chars : List Char}
      {lexemes : List Lexeme} (hopened : first.before.opened? = some (n + 1, chars))
      (hothers : ∀ call ∈ others, call.before.opened? = none)
      (hfindings : (first :: others).map Call.finding = lexemes.map fun l => some ⟨n + 1, l⟩)
      (hline : Lexeme.IsLine lexemes) (hread : ∀ l ∈ lexemes, l.isUnreadable = false)
      (rest : CallsByLine (n + 1) later) : CallsByLine n (first :: others ++ later)

/-- Reading fails only where the line is used up. -/
theorem line_eq_nil_of_error {reason : String} (h : c.fill.1 = .error reason) : c.line = [] := by
  obtain ⟨_, hfill⟩ | ⟨hline, _⟩ | ⟨hline, _⟩ | ⟨hline, _⟩ := c.fill_cases
  · rw [hfill] at h
    cases h
  · exact hline
  · exact hline
  · exact hline

/-- Characters are held behind a read that has neither failed nor met the end. -/
theorem ne_nil_of_fill (hok : c.fill.1 = .ok ()) (hended : c.fill.2.ended = false) :
    c.fill.2.line ≠ [] := by
  obtain ⟨hline, hfill⟩ | ⟨_, chars, source, hr, hfill⟩ | ⟨_, reason, source, _, hfill⟩ |
    ⟨_, source, _, hfill⟩ := c.fill_cases
  · rwa [hfill]
  · rw [hfill]
    exact Source.ne_nil_of_readLine (congrArg Prod.fst hr)
  · simp [hfill] at hok
  · simp [hfill] at hended

/-- The characters of a line that ends with its line feed do not run out. -/
theorem HoldsLine.next? (h : c.HoldsLine) : c.next? = some c.next := by
  obtain ⟨reason, hfill, hnext⟩ | ⟨hfill, hended, hnext⟩ | ⟨hfill, hended, hnext⟩ := c.next_cases
  · rw [hnext, Cursor.next?, ← Prod.mk.eta (p := c.fill), hfill]
  · rw [hnext, Cursor.next?, ← Prod.mk.eta (p := c.fill), hfill]
    simp [hended]
  · have hmem : '\n' ∈ c.fill.2.line := h.fill.lineFeed_mem (ne_nil_of_fill hfill hended)
    rw [hnext, Cursor.next?, ← Prod.mk.eta (p := c.fill), hfill]
    simp [hended, Lexeme.first?_of_mem hmem]

/-- Reading a line does not change which line is scanned next. -/
theorem lineToScan_fill (c : Cursor) : c.fill.2.lineToScan = c.lineToScan := by
  obtain ⟨_, hfill⟩ | ⟨hline, chars, source, hr, hfill⟩ | ⟨_, reason, source, _, hfill⟩ |
    ⟨_, source, _, hfill⟩ := c.fill_cases
  · rw [hfill]
  · have hne : chars ≠ [] := Source.ne_nil_of_readLine (congrArg Prod.fst hr)
    rw [hfill, lineToScan, lineToScan, if_neg hne, if_pos hline]
  · rw [hfill]
    rfl
  · rw [hfill]
    rfl

/-- A finding is on the line to scan, and only the end of this line leads to the next one. -/
theorem HoldsLine.lineToScan_next (h : c.HoldsLine) :
    (∀ f, c.next.1 = some f → f.line = c.lineToScan) ∧
      c.next.2.lineToScan =
        c.lineToScan + (c.next.1.toList.map Finding.lexeme).count (.token .newline) := by
  have hfilled := c.lineToScan_fill
  obtain ⟨reason, hfill, hnext⟩ | ⟨_, _, hnext⟩ | ⟨_, hended, hnext⟩ := c.next_cases
  · rw [hnext]
    refine ⟨fun f hf => ?_, hfilled⟩
    cases hf
    have hnil : c.line = [] := line_eq_nil_of_error hfill
    have hstays : c.fill.2.line = [] := by
      rw [fill_of_error hfill]
      exact hnil
    rw [← hfilled, lineToScan, if_pos hstays]
  · rw [hnext]
    refine ⟨fun f hf => ?_, hfilled⟩
    cases hf
  · have hopen : c.ended = false := by
      cases hc : c.ended with
      | false => rfl
      | true => exact absurd (ended_fill hc) (by simp [hended])
    obtain ⟨_, hline, hscan⟩ := lineToScan_of_next h hopen hnext
    rw [hnext]
    constructor
    · intro f hf
      cases hf
      exact hline
    · rw [hscan, hline]
      by_cases hl : (Lexeme.first c.fill.2.line).1 = .token .newline
      · simp [hl]
      · simp [hl]

/-- The number of the next line to scan counts the ends of lines that have been found. -/
theorem HoldsLine.found (h : c.HoldsLine) (n : Nat) :
    c.found n = Lexeme.numbered c.lineToScan ((c.found n).map Finding.lexeme) ∧
      (c.after n).lineToScan =
        c.lineToScan + ((c.found n).map Finding.lexeme).count (.token .newline) := by
  induction n generalizing c with
  | zero => exact ⟨rfl, rfl⟩
  | succ n ih =>
      obtain ⟨hline, hscan⟩ := h.lineToScan_next
      obtain ⟨hfound, hafter⟩ := ih h.next
      rw [hscan] at hfound hafter
      have hfirst : c.next.1.toList =
          Lexeme.numbered c.lineToScan (c.next.1.toList.map Finding.lexeme) := by
        cases hf : c.next.1 with
        | none => rfl
        | some f => simp [Lexeme.numbered, ← hline f hf]
      constructor
      · rw [Cursor.found, List.map_append, Lexeme.numbered_append, ← hfirst, ← hfound]
      · rw [Cursor.found, List.map_append, List.count_append, ← Nat.add_assoc]
        exact hafter

/-- The calls within a line read nothing and find its lexemes. -/
theorem exists_calls_of_line (source : Source) (line : List Char) (n : Nat) :
    ∃ within, calls ⟨source, line, n, false⟩ = within ++ calls ⟨source, [], n, false⟩ ∧
      (∀ call ∈ within, call.before.opened? = none) ∧
      within.map Call.finding = (Lexeme.ofLine line).map fun l => some ⟨n, l⟩ := by
  fun_induction Lexeme.ofLine line with
  | case1 => exact ⟨[], rfl, by simp, rfl⟩
  | case2 line hne ih =>
      obtain ⟨within, hcalls, hopened, hfindings⟩ := ih
      have hnext : next ⟨source, line, n, false⟩ = _ := next_of_line hne
      rw [calls_of_some hnext, hcalls]
      refine ⟨_ :: within, rfl, ?_, by rw [List.map_cons, hfindings, List.map_cons]⟩
      exact List.forall_mem_cons.mpr ⟨opened?_of_ne_nil hne source n, hopened⟩

/-- The calls of a cursor in a source go line by line. -/
theorem callsByLine (s : Source) (n : Nat) : CallsByLine n (calls ⟨s, [], n, false⟩) := by
  induction s using Source.lines_induction generalizing n with
  | ended s _ hended =>
      obtain ⟨rest, hread⟩ : ∃ rest, s.readLine = (.ended, rest) := ⟨_, Prod.ext hended rfl⟩
      rw [calls_of_none (next_of_ended hread)]
      exact .ended (by simp [opened?, hread]) rfl
  | line line rest hfirst ih =>
      have hread := hfirst.readLine
      obtain ⟨_, reason, hfailed⟩ | ⟨_, chars, hline⟩ := hfirst.readLine_cases
      · rw [hfailed] at hread
        rw [calls_of_some (next_of_failed hread)]
        exact .failed (by simp [opened?, hread]) rfl (ih n)
      · rw [hline] at hread
        have hne : chars ≠ [] := Source.ne_nil_of_readLine hline
        have hlexemes : Lexeme.IsLine (Lexeme.ofLine chars) := by
          obtain ⟨body, hbody, rfl⟩ := Source.exists_body_of_readLine hline
          exact Lexeme.isLine_ofLine hbody
        have hfindsFirst := (next_of_readLine (n := n) hread).trans (next_of_line hne)
        obtain ⟨others, hcalls, hopened, hfindings⟩ :=
          exists_calls_of_line rest (Lexeme.first chars).2 (n + 1)
        rw [calls_of_some hfindsFirst, hcalls]
        refine .line (opened?_of_readLine hread) hopened ?_ hlexemes
          Lexeme.isUnreadable_of_mem_ofLine (ih (n + 1))
        rw [Lexeme.ofLine_of_ne_nil hne, List.map_cons, List.map_cons, hfindings]

/-- No call decreases the number of the line. -/
theorem lineNr_after_le (c : Cursor) {m n : Nat} (h : m ≤ n) :
    (c.after m).lineNr ≤ (c.after n).lineNr := by
  induction h with
  | refl => exact Nat.le_refl _
  | step _ ih =>
      rw [after_succ, lineNr_next]
      exact Nat.le_add_right_of_le ih

/-- After any calls a cursor holds nothing or the rest of a line up to its only line feed, and the
characters of this line do not run out in the next call. Up to the first report of the end, the
calls for a line that is read find lexemes with its number, and only the last of them is the end of
the line. The numbers never decrease, and at the end of a line they count the ends of lines that
have been found. -/
theorem lines_end_once (s : Source) :
    (∀ n, ((ofSource s).after n).HoldsLine ∧
      ((ofSource s).after n).next? = some ((ofSource s).after n).next) ∧
    CallsByLine 0 (ofSource s).calls ∧
    ∀ n, ((ofSource s).found n).Pairwise (fun f g => f.line ≤ g.line) ∧
      (∀ m, m ≤ n → ((ofSource s).after m).lineNr ≤ ((ofSource s).after n).lineNr) ∧
      (((ofSource s).after n).line = [] →
        (((ofSource s).found n).map Finding.lexeme).count (.token .newline) =
          ((ofSource s).after n).lineNr) := by
  have hstart := holdsLine_ofSource s
  have hscan : (ofSource s).lineToScan = 1 := rfl
  refine ⟨fun n => ⟨hstart.after n, (hstart.after n).next?⟩, callsByLine s 0, fun n => ?_⟩
  obtain ⟨hnumbered, hcount⟩ := hstart.found n
  refine ⟨?_, fun m hm => lineNr_after_le _ hm, fun hnil => ?_⟩
  · rw [hnumbered]
    exact Lexeme.pairwise_numbered _ _
  · rw [lineToScan, if_pos hnil, hscan] at hcount
    omega

/-- A line that cannot be read and a fault within a line do not count as ends of lines. -/
theorem lines_end_once_behind_faults :
    let s : Source := .failure "gone" :: Source.ofText ['9', 'x', '\n', '#']
    let c : Cursor := ⟨.ofText ['#'], [], 1, false⟩
    (ofSource s).after 3 = c ∧ c.line = [] ∧
      (ofSource s).found 3 = [⟨1, .fault (.unreadable "gone")⟩,
        ⟨1, .fault (.invalidNumber ['9'] 'x')⟩, ⟨1, .token .newline⟩] ∧
      (((ofSource s).found 3).map Finding.lexeme).count (.token .newline) = c.lineNr := by
  intro s c
  have hafter : (ofSource s).after 3 = c := by cbv
  obtain ⟨_, _, hcounts⟩ := lines_end_once s
  obtain ⟨_, _, hcount⟩ := hcounts 3
  rw [hafter] at hcount
  exact ⟨hafter, rfl, by cbv, hcount rfl⟩

end Cursor

end RandomAccessMachine
