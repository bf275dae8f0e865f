import Scriptlet.Proofs.ScanAgreement
import Scriptlet.Proofs.Watching
import Scriptlet.Proofs.Whereabouts

/-!
What a report says of the place of a failure. The reader of a script always stands in one of its
lines, also when a loop has resumed an earlier place or a token has been put back, and a fault gets
the line in which the reader stands. That is not always the line of what is wrong: a name that
starts a statement is looked up only when the token behind it has been read, and a literal in
quotes is found open only behind the newline that ends its line.
-/

namespace Scriptlet

/-! ### Literals that are not closed -/

namespace Lexer

def hexNumber (digits : List UInt8) : Nat := digits.foldl (fun n b => n * 16 + hexValue b) 0

/-- A literal of which `content` stands in its line behind the opening quote, and which neither that
nor `rest` behind it closes: the script or the line ends here. No newline is escaped. -/
inductive Unclosed (quote : UInt8) : List UInt8 → List UInt8 → Prop where
  | scriptEnds : Unclosed quote [] []
  | lineEnds (more : List UInt8) : Unclosed quote [] (10 :: more)
  | dangling : Unclosed quote [92] []
  | plain {b content rest} : b ≠ 10 → b ≠ quote → b ≠ 92 → Unclosed quote content rest →
      Unclosed quote (b :: content) rest
  | escape {b content rest} : b ≠ 10 → b ≠ 120 → b ≠ 117 → Unclosed quote content rest →
      Unclosed quote (92 :: b :: content) rest
  | numeric {mark digits content rest} :
      mark = 120 ∧ digits.length = 2 ∨ mark = 117 ∧ digits.length = 4 →
      digits.all isHexDigit = true → (scalar? (hexNumber digits)).isSome = true →
      Unclosed quote content rest → Unclosed quote (92 :: mark :: (digits ++ content)) rest

theorem Unclosed.ends {quote : UInt8} {content rest : List UInt8}
    (h : Unclosed quote content rest) : rest = [] ∨ ∃ more, rest = 10 :: more := by
  induction h with
  | scriptEnds => exact .inl rfl
  | lineEnds more => exact .inr ⟨more, rfl⟩
  | dangling => exact .inl rfl
  | plain _ _ _ _ ih => exact ih
  | escape _ _ _ _ ih => exact ih
  | numeric _ _ _ _ ih => exact ih

theorem Unclosed.inLine {quote : UInt8} {content rest : List UInt8}
    (h : Unclosed quote content rest) : 10 ∉ content := by
  induction h with
  | scriptEnds => simp
  | lineEnds more => simp
  | dangling => simp
  | plain newline _ _ _ ih => simp [newline.symm, ih]
  | escape newline _ _ _ ih => simp [newline.symm, ih]
  | @numeric mark digits content rest marked hex _ _ ih =>
    have digit : 10 ∉ digits := fun inside => by
      have := List.all_eq_true.mp hex 10 inside
      cases this
    have mark : mark ≠ 10 := by
      rcases marked with ⟨rfl, -⟩ | ⟨rfl, -⟩ <;> simp
    simp [mark.symm, digit, ih]

/-- A numeric escape that is read to its last digit is the character of its number. -/
theorem string_digits {quote : UInt8} {value : List UInt8} {width n : Nat} {c : Char}
    {digits rest : List UInt8} (some : digits ≠ []) (hex : digits.all isHexDigit = true)
    (scalar : scalar? (digits.foldl (fun n b => n * 16 + hexValue b) n) = .some c) :
    string quote value width (.digits digits.length n) (digits ++ rest) =
      string quote ((String.utf8EncodeChar c).reverse ++ value) (width + digits.length) .plain
        rest := by
  induction digits generalizing width n with
  | nil => exact absurd rfl some
  | cons b digits ih =>
    obtain ⟨digit, hex⟩ : isHexDigit b = true ∧ digits.all isHexDigit = true := by simpa using hex
    rw [List.cons_append, string, if_neg (by simp [digit])]
    cases digits with
    | nil =>
      simp only [List.length_singleton, Nat.lt_irrefl, if_false]
      simp only [List.foldl_cons, List.foldl_nil] at scalar
      simp [scalar]
    | cons d digits =>
      have more : 1 < (b :: d :: digits).length := by simp
      simp only [more, if_true]
      rw [List.length_cons, Nat.add_sub_cancel, ih (List.cons_ne_nil d digits) hex scalar]
      congr 1
      simp only [List.length_cons]
      omega

/-- Such a literal is malformed, and the newline that ends its line is the last octet read of it. -/
theorem string_unclosed {quote : UInt8} {content rest : List UInt8} (mark : quote ≠ 92)
    (h : Unclosed quote content rest) (value : List UInt8) (width : Nat) :
    string quote value width .plain (content ++ rest) =
      .error unterminated (width + content.length + if rest = [] then 0 else 1) := by
  induction h generalizing value width with
  | scriptEnds => rfl
  | lineEnds more => simp [string]
  | dangling => simp [string, mark.symm]
  | @plain b content rest newline quote' escape _ ih =>
    rw [List.cons_append, string, if_neg newline, if_neg quote', if_neg escape, ih]
    congr 1
    simp only [List.length_cons]
    omega
  | @escape b content rest _ hex unicode _ ih =>
    rw [List.cons_append, string, if_neg (by decide), if_neg mark.symm, if_pos rfl,
      List.cons_append, string, if_neg hex, if_neg unicode, ih]
    congr 1
    simp only [List.length_cons]
    omega
  | @numeric letter digits content rest marked hex scalar _ ih =>
    obtain ⟨c, scalar⟩ := Option.isSome_iff_exists.mp scalar
    have opens : string quote value width .plain (92 :: letter :: (digits ++ content) ++ rest) =
        string quote value (width + 2) (.digits digits.length 0) (digits ++ (content ++ rest)) := by
      rw [List.cons_append, string, if_neg (by decide), if_neg mark.symm, if_pos rfl,
        List.cons_append, List.append_assoc, string]
      rcases marked with ⟨rfl, two⟩ | ⟨rfl, four⟩
      · rw [if_pos rfl, two]
      · rw [if_neg (by decide), if_pos rfl, four]
    have some : digits ≠ [] := by
      rintro rfl
      simp at marked
    rw [opens, string_digits some hex scalar, ih]
    congr 1
    simp only [List.length_cons, List.length_append]
    omega

theorem piece_unclosed {quote : UInt8} {content rest : List UInt8}
    (quoted : quote = 34 ∨ quote = 39) (h : Unclosed quote content rest) :
    piece quote (content ++ rest) =
      .error unterminated (content.length + if rest = [] then 0 else 1) := by
  have mark : quote ≠ 92 := by
    rcases quoted with rfl | rfl <;> decide
  have reads : piece quote (content ++ rest) = string quote [] 0 .plain (content ++ rest) := by
    rcases quoted with rfl | rfl <;> rfl
  rw [reads, string_unclosed mark h, Nat.zero_add]

/-- The octets read of such a literal hold the newline that ends its line, if there is one. -/
theorem Unclosed.newlines {quote : UInt8} {content rest : List UInt8}
    (h : Unclosed quote content rest) :
    ((content ++ rest).take (content.length + if rest = [] then 0 else 1)).count 10 =
      if rest = [] then 0 else 1 := by
  have none : content.count 10 = 0 := List.count_eq_zero.mpr h.inLine
  rcases h.ends with rfl | ⟨more, rfl⟩
  · simpa using none
  · rw [if_neg nofun, List.take_length_add_append]
    simp [none]

end Lexer

/-! ### Faults and their places -/

/-- The reader has just taken a name that stands behind `before`, or the name and the token behind
it, which may have been put back. -/
inductive Input.Naming (script before : List UInt8) (name : String) : Input → Prop where
  | taken {i : Input} : i.Got script before ⟨.identifier, name⟩ → Naming script before name i
  | past {i j k : Input} {nl t} : i.Got script before ⟨.identifier, name⟩ →
      i.next (lookahead nl) = (t, j) → k = j ∨ k = j.unread t → Naming script before name k

/-- What the place of a failure tells: the line is the one that the reader is in, unless none has
been given yet, a malformed token has just been taken, and an unbound name has just been read. -/
structure Fault.Told (script : List UInt8) (fault : Fault) (i : Input) : Prop where
  stands : i.Stands script
  line : fault.line = 0 ∨ fault.line = i.line
  lexical : fault.cause.kind = .lexical → ∃ message before,
    fault.cause = .malformed message ∧ i.Got script before ⟨.error, message⟩
  unbound : ∀ name, fault.cause = .undefinedVariable name → ∃ before, i.Naming script before name

theorem Fault.told_of_plain {script : List UInt8} {fault : Fault} {i : Input}
    (plain : fault.cause.plain = true) (stands : i.Stands script)
    (line : fault.line = 0 ∨ fault.line = i.line) : fault.Told script i := by
  refine ⟨stands, line, fun lexical => absurd lexical (Cause.kind_of_plain plain), ?_⟩
  intro name unbound
  rw [unbound] at plain
  cases plain

/-- Once it has a line, it is the one that the reader is in. -/
theorem Fault.Told.orLine {script : List UInt8} {fault : Fault} {i : Input}
    (h : fault.Told script i) :
    (fault.orLine i.line).Told script i ∧ (fault.orLine i.line).line = i.line := by
  have same : (fault.orLine i.line).line = i.line := by
    unfold Fault.orLine
    split
    · rfl
    · rename_i given
      exact h.line.resolve_left given
  refine ⟨⟨h.stands, .inr same, ?_, ?_⟩, same⟩
  · rw [cause_orLine]
    exact h.lexical
  · rw [cause_orLine]
    exact h.unbound

def Watch.places (script : List UInt8) : Watch where
  here := Input.Sited script
  took t i := t.kind ≠ .error ∧ ∃ before, i.Got script before t
  named name i := ∃ before, i.Naming script before name
  tells fault i := fault.Told script i
  next here read proper := ⟨proper, here.next read⟩
  malformed := by
    rintro i j ⟨kind, message⟩ phase here read rfl
    obtain ⟨before, got⟩ := here.next read
    exact ⟨got.stands, .inr rfl, fun _ => ⟨message, before, rfl, got⟩, nofun⟩
  taken := fun ⟨proper, _, got⟩ => got.sited proper
  unread := fun ⟨proper, _, got⟩ => got.unread proper
  name := by
    rintro ⟨kind, name⟩ i ⟨-, before, got⟩ rfl
    exact ⟨before, .taken got⟩
  behind := by
    rintro ⟨kind, name⟩ u i j nl ⟨-, before, got⟩ rfl read -
    exact ⟨⟨before, .past got read (.inl rfl)⟩, ⟨before, .past got read (.inr rfl)⟩⟩
  unbound := by
    rintro name i here named
    refine ⟨here.stands, .inl rfl, nofun, ?_⟩
    rintro _ ⟨⟩
    exact named
  plain here plain := Fault.told_of_plain plain here.stands (.inl rfl)

namespace Session

open Machine

variable {H : Type} {host : Host H} {s : Session} {state : H} {enclosed : Bool} {script : String}
  {fuel : Nat} {fin : Finished H .text} {fault : Fault}

def failure? (host : Host H) (fuel : Nat) (s : Session) (state : H) (enclosed : Bool)
    (script : String) : Option Fault :=
  (s.eval host fuel state enclosed script).bind fun fin =>
    match fin.answer with
    | .ok _ => none
    | .error fault => some fault

theorem failure?_eq_some : s.failure? host fuel state enclosed script = some fault ↔
    ∃ fin, s.eval host fuel state enclosed script = some fin ∧ fin.answer = .error fault := by
  rw [failure?, Option.bind_eq_some_iff]
  refine exists_congr fun fin => and_congr_right fun _ => ?_
  cases fin.answer with
  | ok value => simp
  | error fault' => simp

/-- A script that fails leaves a report on the place where its last statement has ended. -/
theorem report_of_last {s' : Session} {state' : H} {input : Input} {saved : Option Call}
    {blocks : Nat} {r : Except Fault Phase}
    (last : r ≠ .ok .stmtDone) (failed : s'.verdict r = .error fault)
    (ends : run host fuel ⟨s', state', .deliver .phase r (.script input saved blocks
      (Waiting.idle.around s enclosed))⟩ = some fin) :
    fin.session.report = some (s'.reportText fault.cause.text (fault.orLine s'.line).line) := by
  have deliver : ∀ n (s₁ : Session) (state₁ : H) answer, run host n ⟨s₁, state₁,
      .deliver .text answer (Waiting.idle.around s enclosed)⟩ = some fin →
      fin.session.report = s₁.report := by
    intro n s₁ state₁ answer h
    cases enclosed with
    | false =>
      obtain _ | n := n
      · cases h
      · cases h
        rfl
    | true =>
      obtain _ | _ | n := n
      · cases h
      · cases h
      · cases h
        rfl
  obtain _ | fuel := fuel
  · cases ends
  · rcases r with fault' | phase
    · obtain rfl := Except.error.inj failed
      exact deliver fuel _ _ _ ends
    · cases phase
      case stmtDone => exact absurd rfl last
      case eof => cases failed
      case ret => cases failed
      all_goals
        cases failed
        exact deliver fuel _ _ _ ends

/-- A script that fails tells where. -/
theorem eval_told (ends : s.eval host fuel state enclosed script = some fin)
    (failed : fin.answer = .error fault)
    (leave : ∀ call ∈ s.evalCalls host fuel state enclosed script, call.LeavesInput host)
    (own : ∀ call ∈ s.evalCalls host fuel state enclosed script,
      ¬ call.Raises host fault.cause) :
    ∃ r state₀ s' state' cs, Executes host (s.begun enclosed script) state₀ r s' state' cs ∧
      cs ⊆ s.evalCalls host fuel state enclosed script ∧ s'.verdict r = .error fault ∧
      fault.Told (Utf8.encode script) s'.input ∧ fault.line = s'.line ∧
      fin.session.report = some (s'.reportText fault.cause.text fault.line) := by
  obtain ⟨r, s', state', cs, m, executes, last, -, part, rest⟩ := executes_of_eval ends
  have verdict : s'.verdict r = .error fault := (answer_of_last last rest).symm.trans failed
  have report := report_of_last last verdict rest
  have start : (s.begun enclosed script).input.Sited (Utf8.encode script) :=
    Input.sited_ofScript script
  obtain ⟨r₀, rfl, watched⟩ := executes.attended (W := .places (Utf8.encode script)) start
    fun call inside s' state' ends here => by rwa [leave call (part inside) _ _ _ ends]
  have told : fault.Told (Utf8.encode script) s'.input ∧ fault.line = s'.line := by
    cases r₀ with
    | ok phase =>
      obtain ⟨finishes, here⟩ := watched
      rcases Frame.newStatement_finishes.mp finishes with rfl | rfl | rfl | ⟨rfl, -⟩
      · exact absurd rfl last
      · cases verdict
        exact ⟨Fault.told_of_plain rfl here.stands (.inr rfl), rfl⟩
      · cases verdict
      · cases verdict
    | error fault₀ =>
      obtain rfl := Except.error.inj verdict
      rcases watched with told | ⟨call, inside, raises⟩
      · exact told.orLine
      · rw [← Fault.cause_orLine fault₀ s'.line] at raises
        exact absurd raises (own call (part inside))
  refine ⟨_, _, s', state', cs, executes, part, verdict, told.1, told.2, ?_⟩
  have known : (fault.orLine s'.line).line = fault.line := by
    unfold Fault.orLine
    split
    · exact told.2.symm
    · rfl
  rw [report, known]

/-- Reports are consistent. If a script fails that calls no native function, the line of the fault
is one of the script's lines, counted from 1, and the report is the wording of the fault with that
line and with what a beginning of it decodes to, however the reader has come there. -/
theorem eval_report_quotes (host : Host H) (fuel : Nat) (s : Session) (state : H)
    (enclosed : Bool) (script : String) {fin : Finished H .text} {fault : Fault}
    (ends : s.eval host fuel state enclosed script = some fin)
    (silent : s.evalCalls host fuel state enclosed script = [])
    (failed : fin.answer = .error fault) :
    1 ≤ fault.line ∧ fault.line ≤ (Lexer.lines (Utf8.encode script)).length ∧
      ∃ line read, (Lexer.lines (Utf8.encode script))[fault.line - 1]? = some line ∧
        read <+: line ∧
        fin.session.report = some (fault.cause.text ++ "\n At line " ++ toString fault.line ++
          ", line => \n\n " ++ Utf8.decode read ++ "\n") := by
  obtain ⟨_, _, s', _, _, -, -, -, told, line, report⟩ :=
    eval_told ends failed (by simp [silent]) (by simp [silent])
  obtain ⟨positive, text, left, found, split⟩ := told.stands.line
  have same : fault.line = s'.input.line := line
  rw [← same] at positive found
  have inside : fault.line - 1 < (Lexer.lines (Utf8.encode script)).length :=
    (List.getElem?_eq_some_iff.mp found).1
  refine ⟨positive, by omega, text, s'.input.position.taken.reverse, found, ⟨left, split.symm⟩, ?_⟩
  exact report

theorem eval_report_quotes_replayed :
    let host : Host Unit := { natives := fun _ _ => .done () }
    let s : Session := { id := ⟨0, 1⟩ }
    let script := "for (i = 0; i < 2; i++) \x7b\n  var a = 1 / (1 - i);\n\x7d\n"
    ∃ fin, s.eval host 400 () false script = some fin ∧
      ∃ line read, (Lexer.lines (Utf8.encode script))[1]? = some line ∧ read <+: line ∧
        fin.session.report = some ("Range error: Divide by zero\n At line 2, line => \n\n " ++
          Utf8.decode read ++ "\n") := by
  intro host s script
  have fails : s.failure? host 400 () false script = some ⟨.divideByZero, 2⟩ := by
    decide +kernel
  have silent : s.evalCalls host 400 () false script = [] :=
    List.length_eq_zero_iff.mp (by decide +kernel)
  obtain ⟨fin, ends, failed⟩ := failure?_eq_some.mp fails
  obtain ⟨-, -, line, read, found, quoted, report⟩ :=
    eval_report_quotes host 400 s () false script ends silent failed
  exact ⟨fin, ends, line, read, found, quoted, report⟩

/-- If a script fails that calls no native function, because a variable that it reads is unbound,
then reading has stopped right behind an occurrence of the variable, and the fault has the line of
that; or reading has stopped behind the token that follows it, as it does where a name begins a
simple statement, and the fault is as many lines further down as there are newlines up to there. -/
theorem eval_unbound_place (host : Host H) (fuel : Nat) (s : Session) (state : H)
    (enclosed : Bool) (script : String) {fin : Finished H .text} {fault : Fault} {name : String}
    (ends : s.eval host fuel state enclosed script = some fin)
    (silent : s.evalCalls host fuel state enclosed script = [])
    (failed : fin.answer = .error fault) (unbound : fault.cause = .undefinedVariable name) :
    ∃ state₀ s' state' before i,
      Executes host (s.begun enclosed script) state₀ (.error fault) s' state' [] ∧
      i.Got (Utf8.encode script) before ⟨.identifier, name⟩ ∧
      (s'.input = i ∧ fault.line = 1 + before.count 10 ∨
        ∃ nl t j behind, i.next (lookahead nl) = (t, j) ∧
          (s'.input = j ∨ s'.input = j.unread t) ∧ i.rest = behind ++ j.rest ∧
          fault.line = 1 + before.count 10 + behind.count 10) := by
  obtain ⟨r, state₀, s', state', cs, executes, part, verdict, told, line, -⟩ :=
    eval_told ends failed (by simp [silent]) (by simp [silent])
  obtain rfl : r = .error fault := by
    rcases r with fault' | phase
    · exact congrArg _ (Except.error.inj verdict)
    · cases phase <;> cases verdict <;> cases unbound
  obtain rfl : cs = [] := List.subset_nil.mp (silent ▸ part)
  obtain ⟨before, naming⟩ := told.unbound name unbound
  have here : fault.line = s'.input.line := line
  generalize stopped : s'.input = k at naming here
  cases naming with
  | taken got =>
    refine ⟨state₀, s', state', before, k, executes, got, .inl ⟨stopped, ?_⟩⟩
    rw [here, got.line_of_name rfl]
  | @past i j _ nl t got read back =>
    obtain ⟨behind, split, line⟩ := got.line_next read
    have same : k.line = j.line := by
      rcases back with rfl | rfl <;> rfl
    refine ⟨state₀, s', state', before, i, executes, got,
      .inr ⟨nl, t, j, behind, read, ?_, split, ?_⟩⟩
    · rwa [stopped]
    · rw [here, same, line, got.line_of_name rfl]

theorem eval_unbound_place_conditional :
    let host : Host Unit := { natives := fun _ _ => .done () }
    let s : Session := { id := ⟨0, 1⟩ }
    let script := "var a = 1;\nif (a) y // unbound\n;"
    ∃ fin fault, s.eval host 400 () false script = some fin ∧ fin.answer = .error fault ∧
      ∃ state₀ s' state' before i,
        Executes host (s.begun false script) state₀ (.error fault) s' state' [] ∧
        i.Got (Utf8.encode script) before ⟨.identifier, "y"⟩ ∧
        (s'.input = i ∧ fault.line = 1 + before.count 10 ∨
          ∃ nl t j behind, i.next (lookahead nl) = (t, j) ∧
            (s'.input = j ∨ s'.input = j.unread t) ∧ i.rest = behind ++ j.rest ∧
            fault.line = 1 + before.count 10 + behind.count 10) := by
  intro host s script
  have fails : s.failure? host 400 () false script = some ⟨.undefinedVariable "y", 3⟩ := by
    decide +kernel
  have silent : s.evalCalls host 400 () false script = [] :=
    List.length_eq_zero_iff.mp (by decide +kernel)
  obtain ⟨fin, ends, failed⟩ := failure?_eq_some.mp fails
  exact ⟨fin, _, ends, failed, eval_unbound_place host 400 s () false script ends silent failed rfl⟩

/-- The name stands in the first line and nowhere else, and the fault is put in the second. -/
theorem unbound_line_behind :
    let host : Host Unit := { natives := fun _ _ => .done () }
    let s : Session := { id := ⟨0, 1⟩ }
    let script := "x\n1"
    s.evalCalls host 100 () false script = [] ∧
      ∃ fin fault, s.eval host 100 () false script = some fin ∧ fin.answer = .error fault ∧
        fault.cause = .undefinedVariable "x" ∧
        ∀ before rest, Utf8.encode script = before ++ Utf8.encode "x" ++ rest →
          fault.line ≠ 1 + before.count 10 := by
  intro host s script
  have fails : s.failure? host 100 () false script = some ⟨.undefinedVariable "x", 2⟩ := by
    decide +kernel
  obtain ⟨fin, ends, failed⟩ := failure?_eq_some.mp fails
  refine ⟨List.length_eq_zero_iff.mp (by decide +kernel), fin, _, ends, failed, rfl, ?_⟩
  intro before rest split
  have bytes : Utf8.encode script = [120, 10, 49] := by decide
  have name : Utf8.encode "x" = [120] := by decide
  rw [bytes, name] at split
  cases before with
  | nil => decide
  | cons b before =>
    have later : before ++ [120] ++ rest = [10, 49] := (List.cons.inj split).2.symm
    have inside : (120 : UInt8) ∈ [10, 49] := by
      rw [← later]
      simp
    exact absurd inside (by decide)

/-- If the first malformed token of a script is a literal in quotes that its line does not close,
native functions leave the script alone, and the evaluation fails on a malformed token of its own,
then it fails on this literal. The line is the one that the literal is in if the script ends there,
and the next one if a newline ends the line. -/
theorem eval_unclosed_line (host : Host H) (fuel : Nat) (s : Session) (state : H)
    (enclosed : Bool) (script : String) {fin : Finished H .text} {fault : Fault}
    {quote : UInt8} {before content rest : List UInt8}
    (first : Lexer.Arrives (Utf8.encode script) before (quote :: (content ++ rest)))
    (quoted : quote = 34 ∨ quote = 39) (unclosed : Lexer.Unclosed quote content rest)
    (ends : s.eval host fuel state enclosed script = some fin)
    (leave : ∀ call ∈ s.evalCalls host fuel state enclosed script, call.LeavesInput host)
    (failed : fin.answer = .error fault) (lexical : fault.cause.kind = .lexical)
    (own : ∀ call ∈ s.evalCalls host fuel state enclosed script,
      ¬ call.Raises host fault.cause) :
    fault.cause = .malformed Lexer.unterminated ∧
      fault.line = 1 + before.count 10 + if rest = [] then 0 else 1 := by
  obtain ⟨_, _, s', _, _, -, -, -, told, line, -⟩ := eval_told ends failed leave own
  obtain ⟨message, before', cause, got⟩ := told.lexical lexical
  obtain ⟨b, bs, width, arrives, hp, position⟩ := got.of_error
  have read := Lexer.piece_unclosed quoted unclosed
  have improper : ∀ message width, ¬ (Lexer.Piece.error message width).Proper :=
    fun _ _ proper => proper rfl
  obtain ⟨rfl, rfl, rfl⟩ := first.malformed_unique (by rw [read]; exact improper _ _) arrives
    (by rw [hp]; exact improper _ _)
  rw [read] at hp
  obtain ⟨same, rfl⟩ := Lexer.Piece.token.inj hp
  obtain rfl : Lexer.unterminated = message := (Token.mk.inj same).2
  refine ⟨cause, ?_⟩
  have inLine : quote ≠ 10 := by
    rcases quoted with rfl | rfl <;> decide
  rw [line, Session.line, Input.line, position, Position.line_pass, List.count_append,
    List.count_cons_of_ne inLine, unclosed.newlines, Nat.add_assoc]

theorem eval_unclosed_line_escaped :
    let host : Host Unit := { natives := fun _ _ => .done () }
    let s : Session := { id := ⟨0, 1⟩ }
    let script := "\n 'it\\'s \\x41"
    ∃ fin fault, s.eval host 100 () false script = some fin ∧ fin.answer = .error fault ∧
      fault.cause = .malformed Lexer.unterminated ∧ fault.line = 2 := by
  intro host s script
  have fails : s.failure? host 100 () false script = some ⟨.malformed Lexer.unterminated, 2⟩ := by
    decide +kernel
  have silent : s.evalCalls host 100 () false script = [] :=
    List.length_eq_zero_iff.mp (by decide +kernel)
  obtain ⟨fin, ends, failed⟩ := failure?_eq_some.mp fails
  have bytes : Utf8.encode script =
      10 :: 32 :: 39 :: [105, 116, 92, 39, 115, 32, 92, 120, 52, 49] := by
    decide
  have first : Lexer.Arrives (Utf8.encode script) [10, 32]
      (39 :: ([105, 116, 92, 39, 115, 32, 92, 120, 52, 49] ++ [])) := by
    rw [bytes]
    exact .head (b := ([10], _)) (.piece trivial) (.single (.piece trivial))
  have unclosed : Lexer.Unclosed 39 [105, 116, 92, 39, 115, 32, 92, 120, 52, 49] [] := by
    refine .plain (by decide) (by decide) (by decide) ?_
    refine .plain (by decide) (by decide) (by decide) ?_
    refine .escape (by decide) (by decide) (by decide) ?_
    refine .plain (by decide) (by decide) (by decide) ?_
    refine .plain (by decide) (by decide) (by decide) ?_
    exact @Lexer.Unclosed.numeric _ 120 [52, 49] [] [] (.inl ⟨rfl, rfl⟩) (by decide) (by decide)
      .scriptEnds
  obtain ⟨cause, line⟩ := eval_unclosed_line host 100 s () false script first (.inr rfl) unclosed
    ends (by simp [silent]) failed rfl (by simp [silent])
  exact ⟨fin, _, ends, failed, cause, line⟩

/-- The literal is in the first line, which does not close it, and the fault is put in the
second. -/
theorem unclosed_line_behind :
    let host : Host Unit := { natives := fun _ _ => .done () }
    let s : Session := { id := ⟨0, 1⟩ }
    let script := "'a\n1"
    s.evalCalls host 100 () false script = [] ∧ Lexer.Unclosed 39 [97] [10, 49] ∧
      Lexer.Arrives (Utf8.encode script) [] (39 :: ([97] ++ [10, 49])) ∧
      ∃ fin fault, s.eval host 100 () false script = some fin ∧ fin.answer = .error fault ∧
        fault.cause = .malformed Lexer.unterminated ∧ fault.line ≠ 1 := by
  intro host s script
  have fails : s.failure? host 100 () false script = some ⟨.malformed Lexer.unterminated, 2⟩ := by
    decide +kernel
  have silent : s.evalCalls host 100 () false script = [] :=
    List.length_eq_zero_iff.mp (by decide +kernel)
  have bytes : Utf8.encode script = 39 :: ([97] ++ [10, 49]) := by decide
  have unclosed : Lexer.Unclosed 39 [97] [10, 49] :=
    .plain (by decide) (by decide) (by decide) (.lineEnds [49])
  obtain ⟨fin, ends, failed⟩ := failure?_eq_some.mp fails
  exact ⟨silent, unclosed, bytes ▸ .refl, fin, _, ends, failed, rfl, by decide⟩

end Session

end Scriptlet
