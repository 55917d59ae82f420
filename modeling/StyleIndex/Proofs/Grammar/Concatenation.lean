import Mathlib
import StyleIndex.Proofs.Grammar.Displacement

set_option autoImplicit false

/-! # Parsing a concatenation

A text that ends in a line feed is cut into the same tokens whatever follows it
(`IsRow.tokenize_append`): a line feed begins no unit of more than one byte, and it ends a line
comment. If such a text parses and its last statement has its terminator, the pass is between two
statements at its end (`run_append_of_lf`). What follows is then parsed as if it stood alone,
with all offsets moved (`parse_append`).
-/

namespace StyleIndex

/-! ## Tokens in front of a line feed -/

/-- A text is a row of units, and of marks outside brackets, with `depth` brackets open in front of
it and `d` behind it. -/
inductive IsRow (d : Nat) : (depth : Nat) → Text → Prop
  | nil : IsRow d d []
  | mark {c : UInt8} {rest : Text} : IsMark c → IsRow d 0 rest → IsRow d 0 (c :: rest)
  | unit {depth : Nat} {p : PreludePart} {after : Text} : p.WellFormed depth after →
      IsRow d (p.depthAfter depth) after → IsRow d depth (p.text ++ after)

/-- A text that is cut to its end is such a row. -/
theorem isRow_of_complete {depth d : Nat} {t : Text}
    (hend : (tokenize depth t).ending = .complete d) : IsRow d depth t := by
  -- on the length of the text: a mark or a unit takes at least one byte
  induction hm : t.length using Nat.strong_induction_on generalizing t depth with
  | _ m ih =>
      cases t with
      | nil =>
          rw [tokenize] at hend
          obtain rfl := LexingEnd.complete.inj hend
          exact .nil
      | cons c rest =>
          cases hnext : Token.next depth c rest with
          | error e =>
              rw [tokenize, hnext] at hend
              cases hend
          | ok l =>
              rcases exists_part_of_next_eq_ok hnext with ⟨rfl, hmark⟩ | ⟨p, after, hp, htext⟩
              · obtain ⟨kind, -, htokens⟩ := tokenize_mark hmark
                rw [htokens] at hend
                exact .mark hmark (ih rest.length (by simp [← hm]) hend rfl)
              · have hlt : after.length < m := hm ▸ length_lt_of_append p.text_ne_nil htext
                rw [← htext] at hend ⊢
                rw [tokenize_part hp] at hend
                exact .unit hp (ih after.length hlt hend rfl)

/-- A text is empty or ends in a line feed. -/
def EndsLine (t : Text) : Prop := t = [] ∨ t.getLast? = some Ascii.lf

/-- What is left of such a text behind its first part is such a text. -/
theorem EndsLine.right {u v : Text} (h : EndsLine (u ++ v)) : EndsLine v := by
  cases v with
  | nil => exact Or.inl rfl
  | cons c v =>
      rcases h with h | h
      · simp at h
      · right
        rwa [List.getLast?_append_of_ne_nil _ (by simp)] at h

/-- A line feed is a plain byte everywhere. -/
theorem isPlain_lf (depth : Nat) (after : Text) : PreludePart.IsPlain depth after Ascii.lf :=
  ⟨by decide, by decide, by simp +decide, by simp +decide, by simp +decide, fun _ => by decide⟩

/-- **A unit at the end of a line stays one**, whatever follows the line. -/
theorem PreludePart.WellFormed.append_of_endsLine {p : PreludePart} {depth : Nat} {after : Text}
    (h : p.WellFormed depth after) (hline : EndsLine (p.text ++ after)) (w : Text) :
    p.WellFormed depth (after ++ w) := by
  cases after with
  | cons c after => exact h.congr rfl
  | nil =>
      -- the unit itself ends in the line feed
      rw [List.append_nil] at hline
      have hlast : p.text.getLast? = some Ascii.lf := hline.resolve_left p.text_ne_nil
      cases p with
      | lineComment t =>
          obtain ⟨hdepth, hrest | ⟨hnot, -⟩⟩ := h
          · exact ⟨hdepth, Or.inl hrest⟩
          · exfalso
            cases t with
            | nil => exact absurd hlast (by decide)
            | cons c t =>
                have hmem : Ascii.lf ∈ c :: t := by
                  apply List.mem_of_getLast?
                  rwa [PreludePart.text, List.getLast?_cons_cons, List.getLast?_cons_cons] at hlast
                exact hnot hmem
      | byte c =>
          obtain rfl : c = Ascii.lf := by simpa [PreludePart.text] using hlast
          exact isPlain_lf depth _
      | _ => exact h

/-- **The tokens of a text that ends in a line feed do not depend on what follows.** -/
theorem IsRow.tokenize_append {a : Text} {depth d : Nat} (h : IsRow d depth a)
    (hline : EndsLine a) (w : Text) :
    tokenize depth (a ++ w)
      = ⟨(tokenize depth a).tokens ++ (tokenize d w).tokens, (tokenize d w).ending⟩ := by
  induction h with
  | nil =>
      rw [tokenize]
      rfl
  | @mark c rest hmark _ ih =>
      obtain ⟨kind, -, htokens⟩ := tokenize_mark hmark
      have hrest := ih (EndsLine.right (u := [c]) hline)
      rw [List.cons_append, htokens, htokens, hrest]
      rfl
  | unit hp _ ih =>
      have hrest := ih hline.right
      rw [List.append_assoc, tokenize_part (hp.append_of_endsLine hline w), tokenize_part hp, hrest]
      rfl

/-- The tokens of a row spell it. -/
theorem IsRow.spelling_tokenize {t : Text} {depth d : Nat} (h : IsRow d depth t) :
    Token.spelling (tokenize depth t).tokens = t := by
  induction h with
  | nil =>
      rw [tokenize]
      rfl
  | @mark c rest hmark _ ih =>
      obtain ⟨kind, -, htokens⟩ := tokenize_mark hmark
      rw [htokens]
      exact congrArg (c :: ·) ih
  | @unit depth p after hp _ ih =>
      rw [tokenize_part hp]
      exact congrArg (p.text ++ ·) ih

/-! ## Brackets between statements -/

namespace ParseState

/-- A unit that leaves no statement open is white space or a comment. -/
theorem depthAfter_of_step_part {s s' : ParseState} {p : PreludePart} {depth : Nat}
    (hs : s.statement = none → depth = 0) (hstep : s.step ⟨p.kind, p.text⟩ = .ok s')
    (hs' : s'.statement = none) : p.depthAfter depth = 0 := by
  obtain ⟨offset, statement, done, blocks⟩ := s
  cases statement with
  | some st =>
      rw [step_part_some] at hstep
      obtain rfl := Except.ok.inj hstep
      cases hs'
  | none =>
      obtain rfl := hs rfl
      cases htrivia : isTrivia p.kind with
      | false =>
          rw [step_part_none htrivia] at hstep
          obtain rfl := Except.ok.inj hstep
          cases hs'
      | true => exact depthAfter_of_isTrivia htrivia 0

/-- **Between statements no bracket is open.** -/
theorem depth_eq_zero_of_foldlM {t : Text} {depth d : Nat} {s s' : ParseState}
    (h : IsRow d depth t) (hs : s.statement = none → depth = 0)
    (hfold : (tokenize depth t).tokens.foldlM step s = .ok s') (hs' : s'.statement = none) :
    d = 0 := by
  induction h generalizing s with
  | nil =>
      rw [tokenize] at hfold
      obtain rfl := Except.ok.inj hfold
      exact hs hs'
  | mark hmark _ ih =>
      -- a mark is one only if no bracket is open
      obtain ⟨kind, -, htokens⟩ := tokenize_mark hmark
      rw [htokens] at hfold
      obtain ⟨s₁, -, hrest⟩ := exists_step_of_foldlM hfold
      exact ih (fun _ => rfl) hrest
  | unit hp _ ih =>
      rw [tokenize_part hp] at hfold
      obtain ⟨s₁, hstep, hrest⟩ := exists_step_of_foldlM hfold
      exact ih (depthAfter_of_step_part hs hstep) hrest

/-! ## The state at the end of a line -/

/-- A run that succeeds is cut to its end, and all its blocks are closed. -/
theorem of_finish_eq_ok {s : ParseState} {ending : LexingEnd} {nodes : List Node}
    (h : s.finish ending = .ok nodes) : s.blocks = [] ∧ ∃ d, ending = .complete d := by
  unfold finish at h
  split at h
  · cases h
  · split at h
    · cases h
    · split at h
      · cases h
      · next hblocks => exact ⟨hblocks, _, rfl⟩

/-- **The state behind a finished text.** A text that parses, ends in a line feed and has its last
statement ended by a mark leaves the pass between statements, whatever follows. -/
theorem run_append_of_lf {a : Text} {sheet : Stylesheet} (ha : parse a = .ok sheet)
    (hline : EndsLine a)
    (hlast : ∀ n ∈ sheet.children.getLast?,
      a[n.stop - 1]? = some Ascii.semicolon ∨ a[n.stop - 1]? = some Ascii.rbrace) (w : Text) :
    initial.run 0 (a ++ w) = run ⟨a.length, none, sheet.children.reverse, []⟩ 0 w := by
  obtain ⟨s, hfold, hfinish⟩ := exists_foldlM_of_run (run_of_parse ha)
  obtain ⟨hblocks, d, hend⟩ := of_finish_eq_ok hfinish
  have hrow := isRow_of_complete hend
  have hnodes := done_of_finish hfinish
  have htidy := tidy_initial.foldlM (fun k hk => length_text_of_isMark hk) hfold
  have hoffset : s.offset = a.length := by
    rw [htidy.offset, List.nil_append, hrow.spelling_tokenize]
  obtain ⟨offset, statement, done, blocks⟩ := s
  obtain rfl : blocks = [] := hblocks
  obtain rfl : offset = a.length := hoffset
  cases statement with
  | some st =>
      -- a statement still open ends with the text, that is with the line feed
      exfalso
      have hmem : .leaf (readHead st.start st.raw false) a.length ∈ sheet.children.getLast? := by
        rw [hnodes]
        simp [endLeaf]
      have hstop : a.getLast? = some Ascii.semicolon ∨ a.getLast? = some Ascii.rbrace := by
        rw [List.getLast?_eq_getElem?]
        exact hlast _ hmem
      rcases hline with rfl | hlf
      · simp at hstop
      · rw [hlf] at hstop
        exact absurd hstop (by decide)
  | none =>
      obtain rfl : d = 0 := depth_eq_zero_of_foldlM hrow (fun _ => rfl) hfold rfl
      rw [run, hrow.tokenize_append hline w]
      simp only
      rw [List.foldlM_append, hfold, hnodes]
      simp only [endLeaf, List.reverse_reverse]
      rfl

end ParseState

/-- **Parsing is compositional.** A text that parses, is empty or ends in a line feed, and has the
last of its statements ended by a semicolon or a closing brace, does not interact with what follows
it. The whole parses if and only if the rest does; its statements are then those of the text,
followed by those of the rest with all their offsets moved, and otherwise the error is that of the
rest, moved. -/
theorem parse_append {a : Text} {sheet : Stylesheet} (ha : parse a = .ok sheet)
    (hline : a = [] ∨ a.getLast? = some Ascii.lf)
    (hlast : ∀ n ∈ sheet.children.getLast?,
      a[n.stop - 1]? = some Ascii.semicolon ∨ a[n.stop - 1]? = some Ascii.rbrace) (b : Text) :
    parse (a ++ b) =
      match parse b with
      | .ok rest => .ok ⟨(a ++ b).length,
          sheet.children ++ rest.children.map (Node.shift a.length)⟩
      | .error e => .error ⟨a.length + e.offset, e.fault⟩ := by
  have hstate : (⟨a.length, none, sheet.children.reverse, []⟩ : ParseState)
      = ParseState.behind a.length sheet.children.reverse .initial := rfl
  rw [ParseState.parse_eq_run, ParseState.parse_eq_run, ParseState.run_append_of_lf ha hline hlast,
    hstate, ParseState.run_behind]
  cases ParseState.initial.run 0 b with
  | error e => rfl
  | ok nodes =>
      show Except.ok _ = Except.ok _
      rw [List.reverse_reverse]

/-- A variable with a comment behind it. -/
def finishedText : Text := text "$a: 1; // b\n"

def finishedSheet : Stylesheet := ⟨12, [.leaf ⟨0, .binding (text "$a") [], text "1"⟩ 6]⟩

/-- A mixin behind the finished text is moved with its name and its parameter, and so is an error
behind it. -/
theorem parse_append_finishedText :
    parse finishedText = .ok finishedSheet ∧ finishedText.getLast? = some Ascii.lf ∧
      (∀ n ∈ finishedSheet.children.getLast?, finishedText[n.stop - 1]? = some Ascii.semicolon ∨
        finishedText[n.stop - 1]? = some Ascii.rbrace) ∧
      parse (finishedText ++ text "@mixin m($x) \x7b\x7d") = .ok ⟨27,
        [.leaf ⟨0, .binding (text "$a") [], text "1"⟩ 6,
          .block ⟨12, .callable .mixin (text "m") 19 [⟨text "$x", [], 21⟩], text "@mixin m($x)"⟩
            26 [] 27]⟩ ∧
      parse (finishedText ++ text "b \x7d") = .error ⟨14, .unexpected Ascii.rbrace⟩ := by
  have hparse : parse finishedText = .ok finishedSheet := by cbv
  have hlf : finishedText.getLast? = some Ascii.lf := by decide
  have hlast : ∀ n ∈ finishedSheet.children.getLast?, finishedText[n.stop - 1]? = some
      Ascii.semicolon ∨ finishedText[n.stop - 1]? = some Ascii.rbrace := by
    rintro n ⟨⟩
    exact Or.inl (by decide)
  have hmixin : parse (text "@mixin m($x) \x7b\x7d") = .ok ⟨15,
      [.block ⟨0, .callable .mixin (text "m") 7 [⟨text "$x", [], 9⟩], text "@mixin m($x)"⟩
        14 [] 15]⟩ := by cbv
  have hbrace : parse (text "b \x7d") = .error ⟨2, .unexpected Ascii.rbrace⟩ := by cbv
  refine ⟨hparse, hlf, hlast, ?_, ?_⟩
  · rw [parse_append hparse (Or.inr hlf) hlast, hmixin]
    rfl
  · rw [parse_append hparse (Or.inr hlf) hlast, hbrace]
    rfl

end StyleIndex
