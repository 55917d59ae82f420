import Mathlib
import StyleIndex.Proofs.Grammar.Displacement

set_option autoImplicit false

/-! # The inside of a block

What stands between the braces of a block is a stylesheet of its own (`parse_interior`), and its
statements are those of the block, moved to the front of the text.

The derivation of the whole text holds a derivation of the inside of every block. There it is
followed by the closing brace, and alone it is followed by nothing. For a body the two are the same
(`Body.WellFormed.alone`): neither continues a statement, and a line comment inside the block has
its line feed, as it would else have swallowed the brace.
-/

namespace StyleIndex

/-! ## A closing brace and the end of the text -/

/-- A unit in front of a closing brace may also end the text. -/
theorem PreludePart.WellFormed.alone {p : PreludePart} {depth : Nat} {u after : Text}
    (h : p.WellFormed depth (u ++ Ascii.rbrace :: after)) : p.WellFormed depth u := by
  cases u with
  | cons c u => exact h.congr rfl
  | nil =>
      cases p with
      | lineComment t =>
          obtain ⟨hdepth, hline | ⟨-, hnil⟩⟩ := h
          · exact ⟨hdepth, Or.inl hline⟩
          · cases hnil
      | byte c =>
          exact ⟨h.not_quote, h.not_bracket, by simp, by simp, by simp, h.not_mark⟩
      | _ => exact h

theorem Prelude.WellFormed.alone {ps : Prelude} {depth : Nat} {u after : Text}
    (h : ps.WellFormed depth (u ++ Ascii.rbrace :: after)) : ps.WellFormed depth u := by
  induction ps generalizing depth with
  | nil => exact h
  | cons p ps ih =>
      obtain ⟨hp, hps⟩ := h
      rw [← List.append_assoc] at hp
      exact ⟨hp.alone, ih hps⟩

/-- A statement that is cut off in front of a closing brace still starts. -/
theorem StartsStatement.alone {u after : Text}
    (h : StartsStatement (u ++ Ascii.rbrace :: after)) : StartsStatement u := by
  obtain ⟨c, rest, heq, hspace, hsemicolon, hrbrace, hcomment⟩ := h
  cases u with
  | nil => exact absurd (List.cons.inj heq).1.symm hrbrace
  | cons d u =>
      obtain ⟨rfl, rfl⟩ := List.cons.inj heq
      refine ⟨d, u, rfl, hspace, hsemicolon, hrbrace, ?_⟩
      rintro ⟨rfl, hnext⟩
      refine hcomment ⟨rfl, ?_⟩
      cases u with
      | nil => simp at hnext
      | cons e u => exact hnext

/-- **A body in front of a closing brace is a body of its own.** -/
theorem Body.WellFormed.alone {b : Body} {u after : Text}
    (h : b.WellFormed (u ++ Ascii.rbrace :: after)) : b.WellFormed u := by
  -- the text in front of the brace takes up what follows an inner body
  induction b generalizing u with
  | done => trivial
  | last ps =>
      obtain ⟨hstart, hps⟩ := h
      rw [← List.append_assoc] at hstart
      exact ⟨hstart.alone, hps.alone⟩
  | space c rest ih => exact ⟨h.1, ih h.2⟩
  | lineComment t rest ih =>
      obtain ⟨hline | ⟨-, hnil⟩, hrest⟩ := h
      · exact ⟨Or.inl hline, ih hrest⟩
      · simp at hnil
  | blockComment t rest ih => exact ⟨h.1, ih h.2⟩
  | semicolon rest ih => exact ih h
  | leaf ps rest ih =>
      obtain ⟨hstart, hps, hrest⟩ := h
      have hstart' : StartsStatement
          ((ps.text ++ Ascii.semicolon :: (rest.text ++ u)) ++ Ascii.rbrace :: after) := by
        simpa using hstart
      have hps' : ps.WellFormed 0
          ((Ascii.semicolon :: (rest.text ++ u)) ++ Ascii.rbrace :: after) := by
        simpa using hps
      exact ⟨hstart'.alone, hps'.alone, ih hrest⟩
  | block ps inner rest ihi ihr =>
      obtain ⟨hstart, hps, hinner, hrest⟩ := h
      have hstart' : StartsStatement ((ps.text ++ Ascii.lbrace ::
          (inner.text ++ Ascii.rbrace :: (rest.text ++ u))) ++ Ascii.rbrace :: after) := by
        simpa using hstart
      have hps' : ps.WellFormed 0 ((Ascii.lbrace ::
          (inner.text ++ Ascii.rbrace :: (rest.text ++ u))) ++ Ascii.rbrace :: after) := by
        simpa using hps
      have hinner' : inner.WellFormed
          ((Ascii.rbrace :: (rest.text ++ u)) ++ Ascii.rbrace :: after) := by
        simpa using hinner
      exact ⟨hstart'.alone, hps'.alone, ihi hinner', ihr hrest⟩

/-! ## Derivations at another place -/

/-- The statements of a body that stands further on are those of the body, moved. -/
theorem Body.nodes_add (n : Nat) (b : Body) :
    ∀ pos : Nat, b.nodes (n + pos) = (b.nodes pos).map (Node.shift n) := by
  induction b with
  | done =>
      intro pos
      rfl
  | last ps =>
      intro pos
      simp only [nodes, List.map_cons, List.map_nil, Node.shift, readHead_add, Nat.add_assoc]
  | space c rest ih =>
      intro pos
      exact ih (pos + 1)
  | lineComment t rest ih =>
      intro pos
      rw [nodes, Nat.add_assoc]
      exact ih _
  | blockComment t rest ih =>
      intro pos
      rw [nodes, Nat.add_assoc]
      exact ih _
  | semicolon rest ih =>
      intro pos
      exact ih (pos + 1)
  | leaf ps rest ih =>
      intro pos
      simp only [nodes, List.map_cons, Node.shift, readHead_add, Nat.add_assoc, ih]
  | block ps inner rest ihi ihr =>
      intro pos
      simp only [nodes, List.map_cons, Node.shift_block, readHead_add, Nat.add_assoc, ihi, ihr]

/-! ## The derivation of the inside -/

/-- A statement in a row or inside it is the first of the row, inside the first, or further on. -/
theorem Node.within_cons {n m : Node} {nodes : List Node} :
    n.Within (m :: nodes) ↔ n = m ∨ n.Within m.children ∨ n.Within nodes := by
  constructor
  · intro h
    cases h with
    | here hn =>
        rcases List.mem_cons.mp hn with rfl | hn
        · exact Or.inl rfl
        · exact Or.inr (Or.inr (.here hn))
    | inside hm hn =>
        rcases List.mem_cons.mp hm with rfl | hm
        · exact Or.inr (Or.inl hn)
        · exact Or.inr (Or.inr (.inside hm hn))
  · rintro (rfl | hn | hn)
    · exact .here List.mem_cons_self
    · exact .inside List.mem_cons_self hn
    · cases hn with
      | here hn => exact .here (List.mem_cons_of_mem _ hn)
      | inside hm hn => exact .inside (List.mem_cons_of_mem _ hm) hn

theorem Node.not_within_nil (n : Node) : ¬ n.Within [] := by
  rintro (⟨⟨⟩⟩ | ⟨⟨⟩, -⟩)

/-- The body `inner` derives the inside of the block `n` in a text that begins at offset `pos`. -/
def Node.HasInside (n : Node) (bodyStart pos : Nat) (t : Text) (inner : Body) : Prop :=
  ∃ front back, t = front ++ (inner.text ++ Ascii.rbrace :: back) ∧
    bodyStart = pos + front.length ∧ n.stop = bodyStart + inner.text.length + 1 ∧
    n.children = inner.nodes bodyStart ∧ inner.WellFormed (Ascii.rbrace :: back)

/-- What derives the inside of a block does so, too, in a text that has more in front. -/
theorem Node.HasInside.prepend {n : Node} {bodyStart pos pos' : Nat} {t t' : Text} {inner : Body}
    (h : n.HasInside bodyStart pos' t inner) (u : Text) (hpos : pos' = pos + u.length)
    (ht : t' = u ++ t) : n.HasInside bodyStart pos t' inner := by
  obtain ⟨front, back, rfl, hstart, hrest⟩ := h
  refine ⟨u ++ front, back, by rw [ht, List.append_assoc], ?_, hrest⟩
  rw [hstart, hpos, List.length_append, Nat.add_assoc]

/-- **The derivation of a text holds one of the inside of every block.** -/
theorem Body.exists_inside {b : Body} {n : Node} {bodyStart : Nat}
    (hbody : n.bodyStart? = some bodyStart) :
    ∀ {pos : Nat} {after : Text}, b.WellFormed after → n.Within (b.nodes pos) →
      ∃ inner, n.HasInside bodyStart pos (b.text ++ after) inner := by
  induction b with
  | done =>
      intro pos after _ hn
      exact absurd hn n.not_within_nil
  | last ps =>
      intro pos after _ hn
      rcases Node.within_cons.mp hn with rfl | hn | hn
      · cases hbody
      · exact absurd hn n.not_within_nil
      · exact absurd hn n.not_within_nil
  | space c rest ih =>
      intro pos after h hn
      obtain ⟨inner, hinner⟩ := ih h.2 hn
      exact ⟨inner, hinner.prepend [c] rfl rfl⟩
  | lineComment t rest ih =>
      intro pos after h hn
      obtain ⟨inner, hinner⟩ := ih h.2 hn
      exact ⟨inner, hinner.prepend (Ascii.slash :: Ascii.slash :: t) rfl (by simp [text])⟩
  | blockComment t rest ih =>
      intro pos after h hn
      obtain ⟨inner, hinner⟩ := ih h.2 hn
      exact ⟨inner, hinner.prepend
        (Ascii.slash :: Ascii.star :: (t ++ [Ascii.star, Ascii.slash])) (by simp) (by simp [text])⟩
  | semicolon rest ih =>
      intro pos after h hn
      obtain ⟨inner, hinner⟩ := ih h hn
      exact ⟨inner, hinner.prepend [Ascii.semicolon] rfl rfl⟩
  | leaf ps rest ih =>
      intro pos after h hn
      rcases Node.within_cons.mp hn with rfl | hn | hn
      · cases hbody
      · exact absurd hn n.not_within_nil
      · obtain ⟨inner, hinner⟩ := ih h.2.2 hn
        exact ⟨inner, hinner.prepend (ps.text ++ [Ascii.semicolon]) (by simp [Nat.add_assoc])
          (by simp [text])⟩
  | block ps inner rest ihi ihr =>
      intro pos after h hn
      obtain ⟨-, -, hinner, hrest⟩ := h
      rcases Node.within_cons.mp hn with rfl | hn | hn
      · -- the block itself
        obtain rfl := Option.some.inj hbody
        exact ⟨inner, ps.text ++ [Ascii.lbrace], rest.text ++ after, by simp [text],
          by simp [Nat.add_assoc], rfl, rfl, hinner⟩
      · -- a block inside it
        obtain ⟨inside, hinside⟩ := ihi hinner hn
        exact ⟨inside, hinside.prepend (ps.text ++ [Ascii.lbrace]) (by simp [Nat.add_assoc])
          (by simp [text])⟩
      · obtain ⟨inside, hinside⟩ := ihr hrest hn
        exact ⟨inside, hinside.prepend (ps.text ++ Ascii.lbrace :: (inner.text ++ [Ascii.rbrace]))
          (by simp; omega) (by simp [text])⟩

/-- **The inside of a block is a stylesheet of its own.** Take a block anywhere in the tree of a
parsed text. The text between its braces parses, and its statements are those of the block in their
order, the same in kind, name, value, flags, parameters, imports and all that is inside them, with
every offset smaller by the offset at which the inside of the block begins. -/
theorem parse_interior {src : Text} {sheet : Stylesheet} {n : Node} {bodyStart : Nat}
    (h : parse src = .ok sheet) (hn : n.Within sheet.children)
    (hbody : n.bodyStart? = some bodyStart) :
    ∃ body, parse (Text.slice src bodyStart (n.stop - 1)) = .ok body ∧
      n.children = body.children.map (Node.shift bodyStart) := by
  obtain ⟨b, hb⟩ := exists_derives_of_parse_eq_ok h
  rw [parse_eq_ok_of_derives hb] at h
  cases h
  obtain ⟨rfl, hwf⟩ := hb
  obtain ⟨inner, front, back, htext, hstart, hstop, hchildren, hinner⟩ :=
    Body.exists_inside hbody hwf hn
  rw [Nat.zero_add] at hstart
  have hslice : Text.slice b.text bodyStart (n.stop - 1) = inner.text := by
    rw [List.append_nil] at htext
    rw [htext, hstop, hstart, Text.slice, List.drop_left, Nat.add_sub_cancel,
      Nat.add_sub_cancel_left, List.take_left]
  have halone : inner.Derives inner.text := ⟨rfl, Body.WellFormed.alone (u := []) hinner⟩
  refine ⟨⟨inner.text.length, inner.nodes 0⟩, ?_, ?_⟩
  · rw [hslice, parse_eq_ok_of_derives halone]
  · rw [hchildren, ← Body.nodes_add, Nat.add_zero]

/-- A mixin inside a rule; its last statement is ended by its brace, and a comment inside it holds
one. -/
def nestedText : Text := text "a \x7b @mixin m($x) \x7b /*\x7d*/ y: $x \x7d \x7d"

def nestedMixin : Node :=
  .block ⟨4, .callable .mixin (text "m") 11 [⟨text "$x", [], 13⟩], text "@mixin m($x)"⟩ 18
    [.leaf ⟨25, .declaration, text "y: $x"⟩ 31] 32

theorem parse_interior_nestedText :
    parse nestedText
        = .ok ⟨34, [.block ⟨0, .ruleset, text "a"⟩ 3 [nestedMixin] 34]⟩ ∧
      nestedMixin.Within [.block ⟨0, .ruleset, text "a"⟩ 3 [nestedMixin] 34] ∧
      nestedMixin.bodyStart? = some 18 ∧
      Text.slice nestedText 18 (nestedMixin.stop - 1) = text " /*\x7d*/ y: $x " ∧
      ∃ body, parse (Text.slice nestedText 18 (nestedMixin.stop - 1)) = .ok body ∧
        nestedMixin.children = body.children.map (Node.shift 18) := by
  have hparse : parse nestedText
      = .ok ⟨34, [.block ⟨0, .ruleset, text "a"⟩ 3 [nestedMixin] 34]⟩ := by cbv
  have hwithin : nestedMixin.Within [.block ⟨0, .ruleset, text "a"⟩ 3 [nestedMixin] 34] :=
    .inside List.mem_cons_self (.here List.mem_cons_self)
  exact ⟨hparse, hwithin, rfl, by decide, parse_interior hparse hwithin rfl⟩

end StyleIndex
