import YaccGrammar.Proofs.Description.Recording
import YaccGrammar.Proofs.Description.Tokens
import YaccGrammar.Proofs.Reading.Run

/-!
# Reading what was written

A text that renders a valid description is read without a diagnostic, and the grammar holds what
the description says.

## Main statements

- `run_of_lays`: a run takes the tokens of a layout one after the other.
- `Stands.contents_eq`: a record of a description makes its grammar.
- `parse_of_renders`: reading undoes rendering.
-/

namespace YaccGrammar.Reading

open Text Tokenizer

/-! ## Runs -/

variable {n : Nat} {t t' : Tokenizer} {s : State}

/-- The tokens of a layout are found one after the other. -/
theorem takes_of_lays {tail text : List Char} {tokens : List String} (hlays : Lays tail tokens text)
    (htokens : ∀ x ∈ tokens, isToken x = true) (hunread : t.source.unread = text) :
    ∃ ts t', ts.map Token.text = tokens ∧ Takes t ts t' ∧ t'.source.unread = tail := by
  induction hlays generalizing t with
  | nil => exact ⟨[], t, rfl, .nil t, hunread⟩
  | @cons gap token tokens rest hgap hseparated hrest ih =>
    rw [List.forall_mem_cons] at htokens
    obtain ⟨line, t₁, hnext, hunread₁⟩ :=
      Tokenizer.next_of_token hunread (.of_blanks hgap) htokens.1 hseparated
    obtain ⟨ts, t', hts, htakes, hunread'⟩ := ih htokens.2 hunread₁
    exact ⟨⟨token, line⟩ :: ts, t', by rw [List.map_cons, hts], .cons hnext htakes, hunread'⟩

/-- The tokens of a layout are taken one after the other, as long as they do not lead to the
trailing code. -/
theorem run_of_lays {tail text : List Char} {tokens : List String} (hlays : Lays tail tokens text)
    (htokens : ∀ x ∈ tokens, isToken x = true) (hunread : t.source.unread = text) :
    ∃ ts t', ts.map Token.text = tokens ∧ t'.source.unread = tail ∧
      ∀ n s, (consumeAll ts s).phase ≠ .trailer →
        run (tokens.length + n) t s =
          (run n t' (consumeAll ts s)).map fun r => { r with tokens := ts ++ r.tokens } := by
  obtain ⟨ts, t', hts, htakes, hunread'⟩ := takes_of_lays hlays htokens hunread
  refine ⟨ts, t', hts, hunread', fun n s hphase => ?_⟩
  rw [← hts, List.length_map]
  exact run_of_takes htakes hphase

/-- Behind the second mark a run takes the rest of the text as it stands. -/
theorem run_of_mark {tail text : List Char} (hlays : Lays tail ["%"] text)
    (hunread : t.source.unread = text)
    (hawaits : ∀ k : Token, k.text = "%" → (consume k s).awaitsTrailer = true) :
    ∃ k t' line, k.text = "%" ∧ run (n + 2) t s =
      .ok ⟨[k], t', (consume k s).setTrailer (String.ofList tail) line, none⟩ := by
  -- the layout of one token is a gap, the token and what follows
  cases hlays with
  | cons hgap hseparated hrest =>
    cases hrest with
    | nil =>
      obtain ⟨line, t₁, hnext, hunread₁⟩ :=
        Tokenizer.next_of_token hunread (.of_blanks hgap) (by decide) hseparated
      obtain ⟨t', hend⟩ := run_of_trailer (n := n) hnext (hawaits ⟨"%", line⟩ rfl)
      rw [hunread₁] at hend
      exact ⟨⟨"%", line⟩, t', t₁.line, rfl, hend⟩

/-! ## Texts -/

/-- The trailing code is not part of what is recorded. -/
theorem Stands.setTrailer {w : Record} (hs : Stands w .trailer s) (code : String) (line : Nat) :
    Stands w .trailer (s.setTrailer code line) := by
  obtain ⟨h, hh, hw⟩ := hs.agrees
  exact ⟨⟨h, hh.of_core rfl hh.inRule, hw⟩, hs.phase, hs.errors⟩

/-- A text that renders a description is read to its end. -/
structure ReadsTo (D : Description) (file : String) (r : Run) : Prop where
  cut : r.cut = none
  complete : r.state.isComplete = true
  stands : Stands (.ofDescription D) r.state.phase r.state
  file : r.state.file = file
  trailing : r.state.grammar.trailingCode.map CodeBlock.code = D.trailing

/-- A layout of a description without trailing code is read to its end. -/
theorem readText_of_lays {D : Description} (hvalid : D.Valid) (htrailing : D.trailing = none)
    (file : String) {text : String} {tail : List Char} (hlays : Lays tail D.tokens text.toList)
    (hblank : tail.all isBlank = true) : ∃ r, readText file text = .ok r ∧ ReadsTo D file r := by
  have htokens : D.tokens = D.body := by simp [Description.tokens, htrailing]
  have hunread : (Tokenizer.ofString text).source.unread = text.toList := rfl
  have hall := isToken_of_mem_tokens hvalid
  obtain ⟨ts, t', hts, hunread', hrun⟩ := run_of_lays hlays hall hunread
  rw [htokens] at hts
  have hstands := stands_of_body hvalid file hts
  -- without trailing code the end of the text comes where a rule might begin
  have hphase : (consumeAll ts (.initial file)).phase ≠ .trailer := by
    rw [hstands.phase]
    exact Phase.noConfusion
  have hframe := frame_consumeAll hphase
  -- every token has a character, so there is a step left to find the end
  obtain ⟨n, hn⟩ : ∃ n, text.toList.length + 1 = D.tokens.length + (n + 1) :=
    ⟨text.toList.length - D.tokens.length, by have := hlays.length_le hall; omega⟩
  obtain ⟨t'', hend⟩ := run_of_blanks (n := n) (s := consumeAll ts (.initial file))
    (by rw [hunread']; exact hblank)
  refine ⟨⟨ts ++ [], t'', consumeAll ts (.initial file), none⟩, ?_, rfl, ?_, ?_, ?_, ?_⟩
  · rw [readText, hn, hrun _ _ hphase, hend]
    rfl
  · -- the text is complete because a rule was read
    simp only [State.isComplete, hstands.phase]
    simpa using mt (hstands.rules_eq_nil_iff rfl).mp (kept_ne_nil_of_valid hvalid)
  · rw [hstands.phase]
    exact hstands
  · exact congrArg Prod.fst hframe
  · rw [show (consumeAll ts (.initial file)).grammar.trailingCode = none from
      congrArg Prod.snd hframe, htrailing]
    rfl

/-- A layout of a description with trailing code is read to its end, and the code is kept as it
stands. -/
theorem readText_of_lays_trailing {D : Description} (hvalid : D.Valid) {code : String}
    (htrailing : D.trailing = some code) (file : String) {text : String}
    (hlays : Lays code.toList D.tokens text.toList) :
    ∃ r, readText file text = .ok r ∧ ReadsTo D file r := by
  have htokens : D.tokens = (D.body ++ ["%"]) ++ ["%"] := by simp [Description.tokens, htrailing]
  have hunread : (Tokenizer.ofString text).source.unread = text.toList := rfl
  have hall := isToken_of_mem_tokens hvalid
  have hlength := hlays.length_le hall
  rw [htokens, List.length_append, List.length_singleton] at hlength
  rw [htokens] at hlays hall
  -- the trailing code is due behind the last mark, so the run is cut in front of it
  obtain ⟨middle, hbody, hmark⟩ := hlays.split
  obtain ⟨ts, t', hts, hunread', hrun⟩ :=
    run_of_lays hbody (List.forall_mem_append.mp hall).1 hunread
  have hstands := stands_of_mark hvalid file hts
  have hphase : (consumeAll ts (.initial file)).phase ≠ .trailer := by
    rw [hstands.phase]
    exact Phase.noConfusion
  -- nothing before the mark sets the trailing code, so it is still due
  have hframe (k : Token) : (consume k (consumeAll ts (.initial file))).frame = (file, none) :=
    (frame_consume hphase).trans (frame_consumeAll hphase)
  have hawaits : ∀ k : Token, k.text = "%" →
      (consume k (consumeAll ts (.initial file))).awaitsTrailer = true := by
    intro k hk
    rw [State.awaitsTrailer, (hstands.trailer hk).phase,
      show (consume k (consumeAll ts (.initial file))).grammar.trailingCode = none from
        congrArg Prod.snd (hframe k)]
    rfl
  obtain ⟨n, hn⟩ : ∃ n, text.toList.length + 1 = (D.body ++ ["%"]).length + (n + 2) :=
    ⟨text.toList.length - (D.body ++ ["%"]).length - 1, by omega⟩
  obtain ⟨k, t'', line, hk, hend⟩ := run_of_mark (n := n) hmark hunread' hawaits
  have htrailer := (hstands.trailer hk).setTrailer (String.ofList code.toList) line
  refine ⟨⟨ts ++ [k], t'', (consume k (consumeAll ts (.initial file))).setTrailer
    (String.ofList code.toList) line, none⟩, ?_, rfl, ?_, ?_, ?_, ?_⟩
  · rw [readText, hn, hrun _ _ hphase, hend]
    rfl
  · rw [State.isComplete, htrailer.phase]
  · rw [htrailer.phase]
    exact htrailer
  · exact congrArg Prod.fst (hframe k)
  · rw [htrailing]
    exact congrArg some String.ofList_toList

/-- A text that renders a valid description is read to its end, with trailing code or without it. -/
theorem readText_of_renders {D : Description} (hvalid : D.Valid) (file : String) {text : String}
    (hrenders : D.Renders text) : ∃ r, readText file text = .ok r ∧ ReadsTo D file r := by
  obtain ⟨tail, hlays, htail⟩ := hrenders
  cases htrailing : D.trailing with
  | none =>
    rw [htrailing] at htail
    exact readText_of_lays hvalid htrailing file hlays htail
  | some code =>
    rw [htrailing] at htail
    subst htail
    exact readText_of_lays_trailing hvalid htrailing file hlays

/-! ## Contents -/

/-- When the record is that of a description, the grammar holds what the description says. -/
theorem Stands.contents_eq {D : Description} {phase : Phase}
    (hs : Stands (.ofDescription D) phase s)
    (htrailing : s.grammar.trailingCode.map CodeBlock.code = D.trailing) :
    s.grammar.contents = D.contents := by
  obtain ⟨h, hh, hw⟩ := hs.agrees
  have hentries : h.entries = D.entries := congrArg Record.entries hw
  have hmentions : h.mentions = D.mentions := congrArg Record.mentions hw
  have hclosings : h.closed.map (fun c => (c.alternative, c.byBar)) = D.closings :=
    congrArg Record.closings hw
  have hcurrent : h.current = none := congrArg Record.current hw
  -- a flag is read off the alternatives that are closed
  have hflags : ∀ n, h.flags n = D.flags n := by
    intro n
    rw [Description.flags, ← hclosings, List.any_map]
    rfl
  have hkept : h.kept = (D.closings.filter fun c => !(c.1.isBlank && c.2)).map Prod.fst := by
    rw [← hclosings, List.filter_map, List.map_map]
    rfl
  have hsymbols : h.names.map h.symbol =
      D.mentions.eraseDups.map fun n => DeclEntry.symbol D.entries (D.flags n) n := by
    rw [History.names, hmentions]
    refine List.map_congr_left fun n _ => ?_
    rw [History.symbol, hentries, hflags]
  -- the start symbol and the rules are told by numbers, which the table turns into names
  have hstart := hh.declaredStart
  rw [← hh.names, hentries] at hstart
  rw [Grammar.contents, Description.contents, Contents.mk.injEq]
  refine ⟨?_, ?_, htrailing, ?_, ?_, ?_⟩
  · rw [hh.importCode]
    exact congrArg Record.importCode hw
  · rw [hh.unionCode]
    exact congrArg Record.unionCode hw
  · exact map_eq_of_rel (rel_imp (fun id n hid => SymbolTable.name_eq_of_names hid) hstart)
  · rw [hh.symbols, hsymbols]
  · rw [hh.map_alternative, hcurrent, hkept, Option.toList_none, List.append_nil]

/-- Reading undoes rendering. A valid description that is laid out as a text in any way is read
without a diagnostic of its own, and the grammar holds exactly what the description says. -/
theorem parse_of_renders {D : Description} (hvalid : D.Valid) (file : String) {text : String}
    (hrenders : D.Renders text) :
    ∃ d, parse file text = .ok (.ok d) ∧ d.errors = d.grammar.verify file ∧
      d.grammar.contents = D.contents := by
  obtain ⟨r, hread, hr⟩ := readText_of_renders hvalid file hrenders
  refine ⟨⟨r.state.grammar, r.state.errors ++ r.state.grammar.verify r.state.file⟩, ?_, ?_,
    hr.stands.contents_eq hr.trailing⟩
  · rw [parse, hread]
    have houtcome : r.outcome =
        .ok ⟨r.state.grammar, r.state.errors ++ r.state.grammar.verify r.state.file⟩ := by
      rw [Run.outcome, hr.cut, hr.complete]
      rfl
    rw [← houtcome]
    rfl
  · rw [hr.stands.errors, hr.file, List.nil_append]

/-- Sums of numbers, with something of everything. -/
def sums : Description where
  importCode := " use ast; "
  declarations :=
    [.names .token (some "num") ["NUM"], .names .left none ["'+'", "NEG"], .union " int num; ",
      .names .type (some "num") ["sum"], .names .start none ["sum"]]
  rules :=
    [⟨"sum", [⟨["sum", "'+'", "NUM"], none, some "\x7b add(\x7b\x7d); \x7d"⟩, ⟨[], none, none⟩,
      ⟨["'-'", "sum"], some "NEG", none⟩]⟩]
  trailing := some "\nfn main() \x7b \x7d"

/-- The sums are read as they are written. -/
theorem parse_of_renders_sums :
    sums.Valid ∧ sums.Renders sums.render ∧
      ∃ d, parse "sums.y" sums.render = .ok (.ok d) ∧ d.errors = d.grammar.verify "sums.y" ∧
        d.grammar.contents = sums.contents := by
  have hvalid : sums.Valid := by decide
  have hrenders : sums.Renders sums.render := sums.renders_render
  exact ⟨hvalid, hrenders, parse_of_renders hvalid "sums.y" hrenders⟩

end YaccGrammar.Reading
