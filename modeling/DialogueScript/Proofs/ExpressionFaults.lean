import DialogueScript.Proofs.Padding

/-!
# Faults of an expression

Where the faults of an expression are reported. The parentheses and the lexemes are at
fault within the text, its end included; everything later is reported at a token, and
tokens begin within the text.

Main statement: `Plan.ofText_error`. A refused text is refused for a reason that
concerns expressions only, at an offset that is at most its length.
-/

namespace DialogueScript

open Text

def Fault.inExpression : Fault → Bool
  | invalidOperator _ | missingOperand _ | missingOperator | unopenedParenthesis
  | unclosedParenthesis | unclosedString | adjacentVariables | adjacentLiterals => true
  | _ => false

/-- The fault is one of an expression, reported no farther than at an offset. -/
def Fault.Within (e : Located Fault) (bound : Nat) : Prop :=
  ∃ cause q, e = .atChar cause q ∧ cause.inExpression = true ∧ q ≤ bound

theorem add_length_cons (offset : Nat) (c : Char) (rest : List Char) :
    offset + (c :: rest).length = offset + 1 + rest.length := by
  rw [List.length_cons, Nat.add_right_comm, Nat.add_assoc]

namespace Token

/-! ## Parentheses and lexemes -/

theorem checkParentheses_error {offset depth : Nat} {text : List Char} {e : Located Fault}
    (h : checkParentheses offset depth text = .error e) :
    Fault.Within e (offset + text.length) := by
  fun_induction checkParentheses offset depth text with
  | case1 offset => cases h
  | case2 offset depth hd =>
    cases h
    exact ⟨_, offset, rfl, rfl, Nat.le_refl _⟩
  | case3 offset depth rest ih =>
    rw [add_length_cons]
    exact ih h
  | case4 offset rest hl =>
    cases h
    exact ⟨_, offset, rfl, rfl, Nat.le_add_right _ _⟩
  | case5 offset depth rest hl hd ih =>
    rw [add_length_cons]
    exact ih h
  | case6 offset depth c rest hl hr ih =>
    rw [add_length_cons]
    exact ih h

theorem scanOperator_error {text : List Char} {fault : Fault} (h : scanOperator text = .error fault) :
    fault.inExpression = true := by
  unfold scanOperator at h
  simp only at h
  split at h
  · exact nomatch h
  · cases h
    rfl

theorem recognize_error {c : Char} {rest : List Char} {e : Located Fault}
    (h : recognize c rest = .error e) : Fault.Within e (rest.length + 1) := by
  unfold recognize at h
  split at h
  · exact nomatch h
  split at h
  · exact nomatch h
  split at h
  · exact nomatch h
  split at h
  · split at h
    · exact nomatch h
    · cases h
      exact ⟨_, _, rfl, rfl, Nat.le_refl _⟩
  split at h
  · exact nomatch h
  · split at h
    · exact nomatch h
    · next fault hscan =>
      cases h
      exact ⟨_, 0, rfl, scanOperator_error hscan, Nat.zero_le _⟩

theorem adjacencyFault?_inExpression {last : Option Lexeme} {lexeme : Lexeme} {fault : Fault}
    (h : adjacencyFault? last lexeme = some fault) : fault.inExpression = true := by
  unfold adjacencyFault? at h
  split at h
  · cases h
    rfl
  · cases h
    rfl
  · exact nomatch h

theorem add_length_drop {c : Char} {rest : List Char} {lexeme : Lexeme} {more : Nat}
    (h : recognize c rest = .ok (lexeme, more)) (offset : Nat) :
    offset + more + (rest.drop more).length = offset + rest.length := by
  rw [List.length_drop, Nat.add_assoc, Nat.add_sub_cancel' (length_le_of_recognize h)]

theorem scanFrom_error {depth offset : Nat} {last : Option Lexeme} {text : List Char}
    {e : Located Fault} (h : scanFrom depth offset last text = .error e) :
    Fault.Within e (offset + text.length) := by
  fun_induction scanFrom depth offset last text with
  | case1 depth offset last => cases h
  | case2 depth offset last c rest hb ih =>
    rw [add_length_cons]
    exact ih h
  | case3 depth offset last rest hb ih =>
    rw [add_length_cons]
    exact ih h
  | case4 depth offset last rest hb hl ih =>
    rw [add_length_cons]
    exact ih h
  | case5 depth offset last c rest hb hl hr e' hrec =>
    cases h
    obtain ⟨cause, q, rfl, hc, hle⟩ := recognize_error hrec
    refine ⟨cause, q + offset, rfl, hc, ?_⟩
    rw [Nat.add_comm q]
    exact Nat.add_le_add_left hle offset
  | case6 depth offset last c rest hb hl hr lexeme more hrec fault hfault =>
    cases h
    exact ⟨fault, offset, rfl, adjacencyFault?_inExpression hfault, Nat.le_add_right _ _⟩
  | case7 depth offset last c rest hb hl hr lexeme more hrec hnone ih =>
    cases hrest : scanFrom depth (offset + 1 + more) (some lexeme) (rest.drop more) with
    | ok ts =>
      rw [hrest] at h
      cases h
    | error e' =>
      rw [hrest] at h
      cases h
      rw [add_length_cons, ← add_length_drop hrec]
      exact ih hrest

theorem offset_of_mem_scanFrom {depth offset : Nat} {last : Option Lexeme} {text : List Char}
    {ts : List Token} (h : scanFrom depth offset last text = .ok ts) :
    ∀ t ∈ ts, t.offset ≤ offset + text.length := by
  fun_induction scanFrom depth offset last text generalizing ts with
  | case1 depth offset last =>
    cases h
    exact fun t ht => absurd ht List.not_mem_nil
  | case2 depth offset last c rest hb ih =>
    rw [add_length_cons]
    exact ih h
  | case3 depth offset last rest hb ih =>
    rw [add_length_cons]
    exact ih h
  | case4 depth offset last rest hb hl ih =>
    rw [add_length_cons]
    exact ih h
  | case5 depth offset last c rest hb hl hr e hrec => cases h
  | case6 depth offset last c rest hb hl hr lexeme more hrec fault hfault => cases h
  | case7 depth offset last c rest hb hl hr lexeme more hrec hnone ih =>
    cases hrest : scanFrom depth (offset + 1 + more) (some lexeme) (rest.drop more) with
    | error e =>
      rw [hrest] at h
      cases h
    | ok us =>
      rw [hrest] at h
      cases h
      intro t ht
      rcases List.mem_cons.mp ht with rfl | ht
      · exact Nat.le_add_right _ _
      · rw [add_length_cons, ← add_length_drop hrec]
        exact ih hrest t ht

/-- Deciding about a `-` changes nothing but its lexeme. -/
theorem map_settleSigns {α : Type} {g : Token → α} (hg : ∀ t lexeme, g { t with lexeme } = g t)
    (after : Bool) (ts : List Token) : (settleSigns after ts).map g = ts.map g := by
  induction ts generalizing after with
  | nil => rfl
  | cons t ts ih =>
    rw [settleSigns]
    split
    · rw [List.map_cons, List.map_cons, ih, hg]
    · rw [List.map_cons, List.map_cons, ih]
    · rw [List.map_cons, List.map_cons, ih]

theorem map_offset_settleSigns (after : Bool) (ts : List Token) :
    (settleSigns after ts).map Token.offset = ts.map Token.offset :=
  map_settleSigns (fun _ _ => rfl) after ts

end Token

/-! ## Plans -/

namespace Draft

def offsets (d : Draft) : List Nat := d.cells.map fun cell => cell.token.offset

theorem offsets_ofTokens (ts : List Token) : (ofTokens ts).offsets = ts.map Token.offset := by
  unfold offsets ofTokens
  rw [List.map_map]
  rfl

theorem offsets_claim (d : Draft) (index : Nat) : (d.claim index).offsets = d.offsets := by
  unfold offsets claim
  refine List.ext_getElem? fun i => ?_
  rw [List.getElem?_map, List.getElem?_map, List.getElem?_modify]
  cases d.cells[i]? with
  | none => rfl
  | some cell =>
    show some (ite (index = i) { cell with owner := some d.steps.length } cell).token.offset = _
    split
    · rfl
    · rfl

theorem offsets_bind {d d' : Draft} {site : Site} {index : Nat} {operand : Operand}
    (h : d.bind site index = .ok (operand, d')) : d'.offsets = d.offsets := by
  unfold bind at h
  split at h
  · exact nomatch h
  · split at h
    · cases h
      rfl
    · exact nomatch h
    · cases h
      exact offsets_claim d index
    · cases h
      exact offsets_claim d index

theorem offsets_bindLeft {d d' : Draft} {site : Site} {operand : Option Operand}
    (h : d.bindLeft site = .ok (operand, d')) : d'.offsets = d.offsets := by
  unfold bindLeft at h
  split at h
  · cases h
    rfl
  · split at h
    · exact nomatch h
    · next index _ =>
      cases hb : d.bind site index with
      | error e =>
        rw [hb] at h
        exact nomatch h
      | ok found =>
        rw [hb] at h
        cases h
        exact offsets_bind hb

/-- The fault is one of an expression, reported at one of the offsets. -/
def Blames (offsets : List Nat) (e : Located Fault) : Prop :=
  ∃ cause, cause.inExpression = true ∧ ∃ offset ∈ offsets, e = .atChar cause offset

theorem bind_error {d : Draft} {site : Site} {index : Nat} {e : Located Fault}
    (hs : site.offset ∈ d.offsets) (h : d.bind site index = .error e) : Blames d.offsets e := by
  unfold bind at h
  split at h
  · cases h
    exact ⟨_, rfl, site.offset, hs, rfl⟩
  · next cell hc =>
    have hmem : cell.token.offset ∈ d.offsets :=
      List.mem_map.mpr ⟨cell, List.mem_of_getElem? hc, rfl⟩
    split at h
    · exact nomatch h
    · cases h
      exact ⟨_, rfl, cell.token.offset, hmem, rfl⟩
    · exact nomatch h
    · exact nomatch h

theorem bindLeft_error {d : Draft} {site : Site} {e : Located Fault} (hs : site.offset ∈ d.offsets)
    (h : d.bindLeft site = .error e) : Blames d.offsets e := by
  unfold bindLeft at h
  split at h
  · exact nomatch h
  · split at h
    · cases h
      exact ⟨_, rfl, site.offset, hs, rfl⟩
    · next index _ =>
      cases hb : d.bind site index with
      | error e' =>
        rw [hb] at h
        cases h
        exact bind_error hs hb
      | ok found =>
        rw [hb] at h
        exact nomatch h

/-- Placing an operator keeps the tokens, or fails at one of them. -/
theorem place_blames {d : Draft} {site : Site} (hs : site.offset ∈ d.offsets) :
    (∃ d', d.place site = .ok d' ∧ d'.offsets = d.offsets) ∨
      ∃ e, d.place site = .error e ∧ Blames d.offsets e := by
  have hclaim := offsets_claim d site.index
  cases hl : (d.claim site.index).bindLeft site with
  | error e =>
    right
    refine ⟨e, place_eq_error_left hl, ?_⟩
    rw [← hclaim] at hs ⊢
    exact bindLeft_error hs hl
  | ok found =>
    obtain ⟨left, d₁⟩ := found
    have hleft := (offsets_bindLeft hl).trans hclaim
    cases hr : d₁.bind site (site.index + 1) with
    | error e =>
      right
      refine ⟨e, place_eq_error_right hl hr, ?_⟩
      rw [← hleft] at hs ⊢
      exact bind_error hs hr
    | ok found =>
      obtain ⟨right, d₂⟩ := found
      left
      exact ⟨_, place_eq_ok hl hr, (offsets_bind hr).trans hleft⟩

/-- A whole run keeps the tokens, or fails at one of them. -/
theorem foldlM_place_blames {d : Draft} {schedule : List Site}
    (hs : ∀ site ∈ schedule, site.offset ∈ d.offsets) :
    (∃ d', schedule.foldlM place d = .ok d' ∧ d'.offsets = d.offsets) ∨
      ∃ e, schedule.foldlM place d = .error e ∧ Blames d.offsets e := by
  induction schedule generalizing d with
  | nil => exact Or.inl ⟨d, rfl, rfl⟩
  | cons site rest ih =>
    rw [List.foldlM_cons]
    rcases place_blames (hs site List.mem_cons_self) with ⟨d', hp, hoff⟩ | ⟨e, hp, hblames⟩
    · rw [hp, ← hoff]
      exact ih fun s hm => hoff ▸ hs s (List.mem_cons_of_mem _ hm)
    · rw [hp]
      exact Or.inr ⟨e, rfl, hblames⟩

theorem finish_error {d : Draft} {e : Located Fault} (h : d.finish = .error e) :
    Blames d.offsets e := by
  unfold finish at h
  split at h
  · next cell hf =>
    cases h
    exact ⟨_, rfl, cell.token.offset, List.mem_map.mpr ⟨cell, List.mem_of_find?_eq_some hf, rfl⟩, rfl⟩
  · exact nomatch h

end Draft

namespace Plan

theorem offset_of_mem_schedule {ts : List Token} {site : Site} (h : site ∈ Site.schedule ts) :
    site.offset ∈ ts.map Token.offset := by
  have hmem := (Site.schedule_perm ts).mem_iff.mp h
  rw [← Forest.sites_ofTokens] at hmem
  obtain ⟨before, t, after, hf, hm⟩ := Forest.exists_of_mem_sites hmem
  have ht : t ∈ Forest.tokens (Forest.ofTokens ts) := by
    rw [hf, Forest.tokens_append]
    exact List.mem_append_right _ List.mem_cons_self
  rw [Forest.tokens_ofTokens] at ht
  exact List.mem_map.mpr ⟨t, ht, hm.offset_eq.symm⟩

/-- Where tokens do not make a plan, the fault is reported at one of them. -/
theorem ofTokens_error {ts : List Token} {e : Located Fault} (h : ofTokens ts = .error e) :
    Draft.Blames (ts.map Token.offset) e := by
  match ts with
  | [] => exact nomatch h
  | [⟨lexeme, depth, offset⟩] =>
    rcases lexeme with o | v | name
    · cases h
      exact ⟨_, rfl, offset, List.mem_cons_self, rfl⟩
    · exact nomatch h
    · exact nomatch h
  | t :: u :: rest =>
    have h : ofDraft (t :: u :: rest) = .error e := h
    have hs : ∀ site ∈ Site.schedule (Token.raiseRuns (t :: u :: rest)),
        site.offset ∈ (Draft.ofTokens (Token.raiseRuns (t :: u :: rest))).offsets := by
      intro site hsite
      rw [Draft.offsets_ofTokens]
      exact offset_of_mem_schedule hsite
    rw [ofDraft_eq] at h
    rw [← Token.map_offset_raiseRuns, ← Draft.offsets_ofTokens]
    rcases Draft.foldlM_place_blames hs with ⟨d, hr, hoff⟩ | ⟨e', hr, hblames⟩
    · rw [hr] at h
      rw [← hoff]
      exact Draft.finish_error h
    · rw [hr] at h
      cases h
      exact hblames

/-- A refused text is refused for a fault of expressions that lies within it. -/
theorem ofText_error {text : List Char} {e : Located Fault} (h : ofText text = .error e) :
    Fault.Within e text.length := by
  unfold ofText Token.scan at h
  cases hcheck : Token.checkParentheses 0 0 text with
  | error e' =>
    rw [hcheck] at h
    cases h
    have hwithin := Token.checkParentheses_error hcheck
    rwa [Nat.zero_add] at hwithin
  | ok u =>
    rw [hcheck] at h
    cases hscan : Token.scanFrom 0 0 none text with
    | error e' =>
      have h : Token.scanFrom 0 0 none text >>= _ = _ := h
      rw [hscan] at h
      cases h
      have hwithin := Token.scanFrom_error hscan
      rwa [Nat.zero_add] at hwithin
    | ok ts =>
      have h : Token.scanFrom 0 0 none text >>= _ = _ := h
      rw [hscan] at h
      obtain ⟨cause, hc, offset, hmem, rfl⟩ := ofTokens_error h
      rw [Token.map_offset_settleSigns] at hmem
      obtain ⟨t, ht, rfl⟩ := List.mem_map.mp hmem
      have hle := Token.offset_of_mem_scanFrom hscan t ht
      rw [Nat.zero_add] at hle
      exact ⟨cause, t.offset, rfl, hc, hle⟩

end Plan

end DialogueScript
