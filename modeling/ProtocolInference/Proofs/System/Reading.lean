import ProtocolInference.Proofs.Event.Label
import ProtocolInference.System.Reading

/-!
What is read of a description is what was put into it.

The text of a layout is its printed lines, each ended by a line break. Cut at
the line breaks it falls into these lines again, except that a line with line
breaks of its own falls apart (`textLines_joinLines`). Only the names of the system
and of the channels can have any. So a text says what the layout says, and
besides whatever those names say (`Layout.isShownBy_text`); and where they have no
line breaks, its parts are read back (`Layout.readParts_text`).
-/

namespace ProtocolInference

/-! ### Cutting texts -/

theorem pieces_eq_singleton {c : Char} {text : String} (h : c ∉ text.toList) :
    pieces c text = [text] := by
  rw [pieces, List.splitOn_eq_singleton h, List.map_singleton, String.ofList_toList]

theorem pieces_append {c : Char} {mark : String} (hmark : mark.toList = [c]) (a b : String) :
    pieces c (a ++ mark ++ b) = pieces c a ++ pieces c b := by
  simp only [pieces, String.toList_append, hmark, List.append_assoc, List.singleton_append]
  rw [List.splitOn_append_cons_self, List.map_append]

/-- The text of the lines, each ended by a line break. -/
def joinLines (ls : List String) : String := String.join (ls.map (· ++ "\n"))

/-- A line falls apart where it has line breaks of its own. -/
theorem textLines_joinLines (ls : List String) :
    textLines (joinLines ls) = ls.flatMap textLines ++ [""] := by
  induction ls with
  | nil => rfl
  | cons l ls ih =>
    rw [joinLines, List.map_cons, String.join_cons, textLines, pieces_append rfl,
      List.flatMap_cons, List.append_assoc, ← ih]
    rfl

theorem toList_joinLines (ls : List String) :
    (joinLines ls).toList = ls.flatMap fun l => l.toList ++ ['\n'] := by
  simp [joinLines, String.toList_join, List.flatMap_map]

/-! ### Words -/

/-- The text stands in one line and has no blanks. -/
def IsWord (text : String) : Prop := IsOneLine text ∧ ' ' ∉ text.toList

instance (text : String) : Decidable (IsWord text) := inferInstanceAs (Decidable (_ ∧ _))

theorem isWord_of_isWordChar {text : String} (h : ∀ c ∈ text.toList, IsWordChar c) :
    IsWord text := by
  constructor <;> intro hc <;> exact absurd (h _ hc) (by simp [IsWordChar])

theorem IsIdentifier.isWord {label : String} (h : IsIdentifier label) : IsWord label :=
  isWord_of_isWordChar h.1

@[simp]
theorem isWord_repr (n : Nat) : IsWord n.repr :=
  isWord_of_isWordChar fun _ => isWordChar_of_mem_toString

theorem isOneLine_append {a b : String} (ha : IsOneLine a) (hb : IsOneLine b) :
    IsOneLine (a ++ b) := by
  rw [IsOneLine, String.toList_append, List.mem_append]
  exact fun h => h.elim ha hb

theorem readNumber_ofList_toDigits (n : Nat) :
    readNumber (String.ofList (Nat.toDigits 10 n)) = some n := by
  have hne : Nat.toDigits 10 n ≠ [] := Nat.toDigits_ne_nil
  have hdigits : (Nat.toDigits 10 n).all Char.isDigit = true :=
    List.all_eq_true.2 fun c hc => Nat.isDigit_of_mem_toDigits (by decide) (by decide) hc
  rw [readNumber, String.toList_ofList, hdigits, List.isEmpty_eq_false_iff.2 hne,
    Nat.ofDigitChars_ten_toDigits]
  rfl

@[simp]
theorem readNumber_repr (n : Nat) : readNumber n.repr = some n := by
  rw [← String.ofList_toList (s := n.repr), Nat.toList_repr]
  exact readNumber_ofList_toDigits n

@[simp]
theorem readProcess_repr (n : Nat) : readProcess ("p" ++ n.repr) = some n := by
  rw [readProcess, String.toList_append, Nat.toList_repr]
  exact readNumber_ofList_toDigits n

theorem isOneLine_intercalate {separator : String} {words : List String}
    (hseparator : IsOneLine separator) (h : ∀ w ∈ words, IsOneLine w) :
    IsOneLine (separator.intercalate words) := by
  induction words with
  | nil => exact List.not_mem_nil
  | cons w words ih =>
    obtain ⟨hw, hwords⟩ := List.forall_mem_cons.1 h
    cases words with
    | nil => rwa [String.intercalate_singleton]
    | cons w' words =>
      rw [String.intercalate_cons_cons]
      exact isOneLine_append (isOneLine_append hw hseparator) (ih hwords)

theorem pieces_intercalate {words : List String} (h : ∀ w ∈ words, IsWord w) (hne : words ≠ []) :
    pieces ' ' (" ".intercalate words) = words := by
  have hblanks : ∀ l ∈ words.map String.toList, ' ' ∉ l :=
    List.forall_mem_map.2 fun w hw => (h w hw).2
  have hsplit : (" ".intercalate words).toList.splitOn ' ' = words.map String.toList := by
    rw [String.toList_intercalate]
    exact List.splitOn_intercalate ' ' hblanks (List.map_eq_nil_iff.not.2 hne)
  rw [pieces, hsplit, List.map_map]
  exact (List.map_congr_left fun w _ => String.ofList_toList).trans (List.map_id' _)

/-- The numbers of a list are read, and the commas between them passed over. -/
theorem filterMap_readNumber_pieces (ns : List Nat) :
    (pieces ' ' (" , ".intercalate (ns.map toString))).filterMap readNumber = ns := by
  induction ns with
  | nil => rfl
  | cons n ns ih =>
    have hn : (pieces ' ' (toString n)).filterMap readNumber = [n] := by
      have hpieces : pieces ' ' (toString n) = [toString n] := pieces_eq_singleton (isWord_repr n).2
      rw [hpieces]
      exact List.filterMap_cons_some (readNumber_repr n)
    cases ns with
    | nil => simpa using hn
    | cons n' ns =>
      have hsplit : " , ".intercalate ((n :: n' :: ns).map toString) =
          toString n ++ " " ++ ("," ++ " " ++ " , ".intercalate ((n' :: ns).map toString)) :=
        String.toList_injective (by simp)
      have hcomma : (pieces ' ' ",").filterMap readNumber = [] := by decide
      rw [hsplit, pieces_append rfl, pieces_append rfl, List.filterMap_append,
        List.filterMap_append, hn, hcomma, ih]
      rfl

/-! ### What lines say -/

/-- Each of the lines is one line, and this is what they say and what they declare. -/
structure IsReadAs (lines : List String) (said : List Statement) (declared : List String) :
    Prop where
  isOneLine : ∀ line ∈ lines, IsOneLine line
  said_eq : lines.filterMap Statement.ofLine = said
  declared_eq : lines.filter isDeclaration = declared

namespace IsReadAs

variable {α : Type} {xs : List α} {lines lines' declared declared' : List String}
variable {said said' : List Statement}

theorem append (h : IsReadAs lines said declared) (h' : IsReadAs lines' said' declared') :
    IsReadAs (lines ++ lines') (said ++ said') (declared ++ declared') where
  isOneLine := List.forall_mem_append.2 ⟨h.isOneLine, h'.isOneLine⟩
  said_eq := by rw [List.filterMap_append, h.said_eq, h'.said_eq]
  declared_eq := by rw [List.filter_append, h.declared_eq, h'.declared_eq]

theorem flatMap {lines declared : α → List String} {said : α → List Statement}
    (h : ∀ x ∈ xs, IsReadAs (lines x) (said x) (declared x)) :
    IsReadAs (xs.flatMap lines) (xs.flatMap said) (xs.flatMap declared) := by
  induction xs with
  | nil => exact ⟨nofun, rfl, rfl⟩
  | cons x xs ih =>
    obtain ⟨hx, hxs⟩ := List.forall_mem_cons.1 h
    exact hx.append (ih hxs)

theorem flatMap_of_nil {lines : α → List String} {said : α → List Statement}
    (h : ∀ x ∈ xs, IsReadAs (lines x) (said x) []) :
    IsReadAs (xs.flatMap lines) (xs.flatMap said) [] := by
  have hnil : (xs.flatMap fun _ => ([] : List String)) = [] :=
    List.flatMap_eq_nil_iff.2 fun _ _ => rfl
  exact hnil ▸ flatMap h

theorem flatMap_textLines (h : IsReadAs lines said declared) : lines.flatMap textLines = lines := by
  have hsame : ∀ line ∈ lines, textLines line = [line] := fun line hline =>
    pieces_eq_singleton (h.isOneLine line hline)
  rw [List.flatMap_congr hsame, List.flatMap_singleton']

theorem statements_eq {line : String} (h : IsReadAs [line] said declared) :
    statements line = said := by
  have hline : textLines line = [line] := pieces_eq_singleton (h.isOneLine line (by simp))
  rw [statements, hline, h.said_eq]

theorem declarations_eq {line : String} (h : IsReadAs [line] said declared) :
    declarations line = declared := by
  have hline : textLines line = [line] := pieces_eq_singleton (h.isOneLine line (by simp))
  rw [declarations, hline, h.declared_eq]

/-- A line is passed over on account of its first word. -/
theorem ofFirst {line : String} (first rest : String) (hline : line = first ++ " " ++ rest)
    (hone : IsOneLine line) (hfirst : pieces ' ' first = [first])
    (hsaid : ∀ words, Statement.ofWords (first :: words) = none)
    (hdeclared : [line].filter isDeclaration = []) : IsReadAs [line] [] [] := by
  refine ⟨List.forall_mem_singleton.2 hone, List.filterMap_cons_none ?_, hdeclared⟩
  rw [hline, Statement.ofLine, pieces_append rfl, hfirst]
  exact hsaid _

/-- A line of words says what its words say. -/
theorem ofWords {line : String} (words : List String) {s : Statement}
    (hline : line = " ".intercalate words) (h : ∀ w ∈ words, IsWord w) (hne : words ≠ [])
    (hsaid : Statement.ofWords words = some s)
    (hdeclared : [line].filter isDeclaration = declared) :
    IsReadAs [line] [s] declared := by
  subst hline
  refine ⟨List.forall_mem_singleton.2 (isOneLine_intercalate (by decide) fun w hw => (h w hw).1),
    List.filterMap_cons_some ?_, hdeclared⟩
  rw [Statement.ofLine, pieces_intercalate h hne, hsaid]

end IsReadAs

/-! ### The lines of a layout -/

namespace Action

def words : Action → List String
  | internal label => [label]
  | send c label => [toString c, "!", label]
  | receive c label => [toString c, "?", label]

variable {action : Action}

theorem isWord_of_mem_words (h : IsIdentifier action.label) : ∀ w ∈ action.words, IsWord w := by
  have hlabel := h.isWord
  cases action <;> simp +decide [words] <;> exact hlabel

theorem intercalate_words : " ".intercalate (action.words ++ [";"]) = action.text ++ " ;" := by
  cases action <;> exact String.toList_injective (by simp [words, text])

theorem ofWords_words : ofWords (action.words ++ [";"]) = some action := by
  cases action <;> simp [words, ofWords]

end Action

theorem TransitionLine.isReadAs {l : TransitionLine} (h : IsIdentifier l.action.label) :
    IsReadAs [l.printed] [.transition l] [] := by
  refine .ofWords ("to" :: toString l.target :: ":" :: "when" :: "true" :: "," ::
    (l.action.words ++ [";"])) ?_ ?_ (List.cons_ne_nil _ _) ?_ ?_
  · have hne : l.action.words ++ [";"] ≠ [] := List.append_ne_nil_of_right_ne_nil _ (by simp)
    simp only [String.intercalate_cons_cons]
    rw [String.intercalate_cons_of_ne_nil hne, Action.intercalate_words]
    exact String.toList_injective (by simp [printed])
  · simpa +decide [or_imp, forall_and] using Action.isWord_of_mem_words h
  · simp [Statement.ofWords, Action.ofWords_words]
  · simp [isDeclaration, printed]

theorem StateBlock.isReadAs {b : StateBlock} (h : ∀ l ∈ b.lines, IsIdentifier l.action.label) :
    IsReadAs b.printed b.statements [] := by
  have hheader : IsReadAs ["state " ++ toString b.number ++ " :"] [.state b.number] [] :=
    .ofWords ["state", toString b.number, ":"] (String.toList_injective (by simp))
      (by simp +decide) (List.cons_ne_nil _ _) (by simp [Statement.ofWords])
      (by simp [isDeclaration])
  have hlines : IsReadAs (b.lines.map TransitionLine.printed) (b.lines.map .transition) [] := by
    simp only [List.map_eq_flatMap]
    exact .flatMap_of_nil fun l hl => TransitionLine.isReadAs (h l hl)
  exact hheader.append hlines

theorem AutomatonBlock.isReadAs {b : AutomatonBlock}
    (h : ∀ s ∈ b.states, ∀ l ∈ s.lines, IsIdentifier l.action.label) :
    IsReadAs b.printed b.statements [] := by
  have hpid : IsWord ("p" ++ toString b.pid) := isWord_of_isWordChar fun c hc => by
    rw [String.toList_append, List.mem_append] at hc
    rcases hc with hc | hc
    · obtain rfl : c = 'p' := by simpa using hc
      exact .inl (by decide)
    · exact isWordChar_of_mem_toString hc
  have hheader : IsReadAs ["automaton p" ++ toString b.pid ++ " :"] [.automaton b.pid] [] :=
    .ofWords ["automaton", "p" ++ toString b.pid, ":"] (String.toList_injective (by simp))
      (by simpa +decide using hpid) (List.cons_ne_nil _ _) (by simp [Statement.ofWords])
      (by simp [isDeclaration])
  have hinitial : IsReadAs ["initial : " ++ " , ".intercalate (b.initial.map toString)]
      [.initial b.initial] [] := by
    refine ⟨List.forall_mem_singleton.2 ?_, List.filterMap_cons_some ?_, by simp [isDeclaration]⟩
    · refine isOneLine_append (by decide) (isOneLine_intercalate (by decide) ?_)
      exact List.forall_mem_map.2 fun n _ => (isWord_repr n).1
    · have hsplit : "initial : " ++ " , ".intercalate (b.initial.map toString) =
          "initial" ++ " " ++ (":" ++ " " ++ " , ".intercalate (b.initial.map toString)) :=
        String.toList_injective (by simp)
      rw [hsplit, Statement.ofLine, pieces_append rfl, pieces_append rfl]
      exact congrArg (some ∘ Statement.initial) (filterMap_readNumber_pieces b.initial)
  have hstates : IsReadAs (b.states.flatMap StateBlock.printed)
      (b.states.flatMap StateBlock.statements) [] :=
    .flatMap_of_nil fun s hs => StateBlock.isReadAs (h s hs)
  have hend : IsReadAs [""] [] [] := ⟨by decide, rfl, rfl⟩
  have hall := ((hheader.append hinitial).append hstates).append hend
  rwa [List.append_nil] at hall

theorem isReadAs_parameter {label : String} (h : IsIdentifier label) :
    IsReadAs [printedParameter label] [.parameter label] [printedParameter label] :=
  .ofWords ["real", label, ";"] (String.toList_injective (by simp [printedParameter]))
    (by simpa +decide using h.isWord) (List.cons_ne_nil _ _) (by simp [Statement.ofWords])
    (by simp [isDeclaration, printedParameter])

/-- Of a channel only the name may have line breaks. -/
theorem Channel.isOneLine_text (c : Channel) (h : ∀ n ∈ c.name, IsOneLine n) :
    IsOneLine c.text := by
  have hends : IsOneLine s!"[{c.src}->{c.dst}]" :=
    isOneLine_append (isOneLine_append (isOneLine_append (isOneLine_append (by decide)
      (isWord_repr _).1) (by decide)) (isWord_repr _).1) (by decide)
  have hname : IsOneLine (c.name.getD s!"c{c.index}") := by
    cases hc : c.name with
    | none => exact isOneLine_append (by decide) (isWord_repr _).1
    | some n => exact h n hc
  exact isOneLine_append hname hends

theorem Channel.isReadAs {c : Channel} (h : IsOneLine c.text) : IsReadAs [c.printed] [] [] := by
  have hone : IsOneLine c.printed :=
    isOneLine_append (isOneLine_append (isOneLine_append (by decide) (isWord_repr _).1)
      (by decide)) h
  exact .ofFirst "channel" (toString c.index ++ " : " ++ c.text)
    (String.toList_injective (by simp [printed])) hone rfl (fun _ => rfl)
    (by simp [isDeclaration, printed])

namespace Layout

variable {d : Layout}

theorem isReadAs_title (h : IsOneLine d.name) : IsReadAs [d.title] [] [] := by
  have hone : IsOneLine d.title := isOneLine_append (isOneLine_append (by decide) h) (by decide)
  exact .ofFirst "scm" (d.name ++ ":")
    (String.toList_injective (by simp [title])) hone rfl (fun _ => rfl)
    (by simp [isDeclaration, title])

theorem isReadAs_head : IsReadAs d.head [.channelCount d.channels.length] [] := by
  have hcount : IsReadAs ["nb_channels = " ++ toString d.channels.length ++ " ;"]
      [.channelCount d.channels.length] [] :=
    .ofWords ["nb_channels", "=", toString d.channels.length, ";"]
      (String.toList_injective (by simp)) (by simp +decide) (List.cons_ne_nil _ _)
      (by simp [Statement.ofWords]) (by simp [isDeclaration])
  have hempty : IsReadAs [""] [] [] := ⟨by decide, rfl, rfl⟩
  have hcomment : IsReadAs ["/*"] [] [] := ⟨by decide, rfl, rfl⟩
  exact hempty.append (hcount.append hcomment)

theorem isReadAs_body (h : d.IsConsistent) :
    IsReadAs d.body (d.parameters.map .parameter ++ d.automata.flatMap AutomatonBlock.statements)
      (d.parameters.map printedParameter) := by
  have hlabel : ∀ l ∈ d.lines, IsIdentifier l.action.label := fun l hl =>
    h.isIdentifier _ (List.count_pos_iff.1 (by rw [h.declared_once l hl]; exact Nat.one_pos))
  have hbegin : IsReadAs ["*/", "", "parameters :"] [] [] := ⟨by decide, by decide, by decide⟩
  have hparameters : IsReadAs (d.parameters.map printedParameter) (d.parameters.map .parameter)
      (d.parameters.map printedParameter) := by
    simp only [List.map_eq_flatMap]
    exact .flatMap fun label hlabel => isReadAs_parameter (h.isIdentifier label hlabel)
  have hlossy : IsReadAs ["", "lossy: 0", ""] [] [] := ⟨by decide, by decide, by decide⟩
  have hautomata : IsReadAs (d.automata.flatMap AutomatonBlock.printed)
      (d.automata.flatMap AutomatonBlock.statements) [] :=
    .flatMap_of_nil fun b hb => AutomatonBlock.isReadAs fun s hs l hl =>
      hlabel l (List.mem_flatMap.2 ⟨b, hb, List.mem_flatMap.2 ⟨s, hs, hl⟩⟩)
  have hall := ((hbegin.append hparameters).append hlossy).append hautomata
  simp only [List.nil_append, List.append_nil] at hall
  exact hall

end Layout

/-! ### The text -/

theorem TransitionLine.text_eq (l : TransitionLine) : l.text = l.printed ++ "\n" := by
  show "to " ++ toString l.target ++ " : when true , " ++ l.action.text ++ " ;\n" = _
  exact String.toList_injective (by simp [printed])

theorem StateBlock.text_eq (b : StateBlock) : b.text = joinLines b.printed := by
  show "state " ++ toString b.number ++ " :\n" ++ String.join (b.lines.map TransitionLine.text) = _
  exact String.toList_injective
    (by simp [printed, toList_joinLines, List.flatMap_map, TransitionLine.text_eq])

theorem AutomatonBlock.text_eq (b : AutomatonBlock) : b.text = joinLines b.printed := by
  show "automaton p" ++ toString b.pid ++ " :\n" ++
    ("initial : " ++ " , ".intercalate (b.initial.map toString) ++ "\n" ++
      String.join (b.states.map StateBlock.text)) ++ "\n" = _
  exact String.toList_injective
    (by simp [printed, toList_joinLines, List.flatMap_map, List.flatMap_assoc, StateBlock.text_eq])

theorem Layout.text_eq (d : Layout) :
    d.text = joinLines ([d.title] ++ d.head ++ d.channels.map Channel.printed ++ d.body) := by
  show "scm " ++ d.name ++ ":\n\n" ++ ("nb_channels = " ++ toString d.channels.length ++ " ;\n") ++
    "/*\n" ++ String.join (d.channels.map fun c => c.printed ++ "\n") ++ "*/\n\n" ++
    "parameters :\n" ++ String.join (d.parameters.map fun label => "real " ++ label ++ " ;\n") ++
    "\nlossy: 0\n\n" ++ String.join (d.automata.map AutomatonBlock.text) = _
  exact String.toList_injective (by
    simp [title, head, body, printedParameter, toList_joinLines, List.flatMap_map,
      List.flatMap_assoc, AutomatonBlock.text_eq])

namespace Layout

variable {d : Layout}

/-- The lines of a description. -/
theorem textLines_text (h : d.IsConsistent) :
    textLines d.text = textLines d.title ++ d.head ++
      (d.channels.flatMap fun c => textLines c.printed) ++ d.body ++ [""] := by
  simp only [text_eq, textLines_joinLines, List.flatMap_append, List.flatMap_singleton,
    List.flatMap_map, isReadAs_head.flatMap_textLines, (isReadAs_body h).flatMap_textLines]

/-- What the lines say, and what the names add to it. -/
theorem isShownBy_text (h : d.IsConsistent) : d.IsShownBy d.text := by
  constructor
  case statements_eq =>
    rw [statements, textLines_text h]
    simp only [List.filterMap_append, List.filterMap_flatMap, isReadAs_head.said_eq,
      (isReadAs_body h).said_eq]
    exact List.append_nil _
  case declarations_eq =>
    rw [declarations, textLines_text h]
    simp only [List.filter_append, List.filter_flatMap, isReadAs_head.declared_eq,
      (isReadAs_body h).declared_eq, List.append_nil]
    exact List.append_nil _

end Layout

/-! ### The parts -/

namespace Reading

variable {p : Parts} {initial : List StateId} {states : List StateBlock}

theorem foldr_transitions (ls lines : List TransitionLine) :
    (ls.map .transition).foldr above ⟨p, initial, states, lines⟩ =
      ⟨p, initial, states, ls ++ lines⟩ := by
  induction ls with
  | nil => rfl
  | cons l ls ih =>
    rw [List.map_cons, List.foldr_cons, ih]
    rfl

theorem foldr_states (bs : List StateBlock) :
    (bs.flatMap StateBlock.statements).foldr above ⟨p, initial, states, []⟩ =
      ⟨p, initial, bs ++ states, []⟩ := by
  induction bs with
  | nil => rfl
  | cons b bs ih =>
    rw [List.flatMap_cons, List.foldr_append, ih, StateBlock.statements, List.foldr_cons,
      foldr_transitions, List.append_nil]
    rfl

theorem foldr_automata (bs : List AutomatonBlock) :
    (bs.flatMap AutomatonBlock.statements).foldr above ⟨p, [], [], []⟩ =
      ⟨{ p with automata := bs ++ p.automata }, [], [], []⟩ := by
  induction bs with
  | nil => rfl
  | cons b bs ih =>
    rw [List.flatMap_cons, List.foldr_append, ih, AutomatonBlock.statements, List.foldr_cons,
      List.foldr_cons, foldr_states, List.append_nil]
    rfl

theorem foldr_parameters (labels : List String) :
    (labels.map .parameter).foldr above ⟨p, [], [], []⟩ =
      ⟨{ p with parameters := labels ++ p.parameters }, [], [], []⟩ := by
  induction labels with
  | nil => rfl
  | cons label labels ih =>
    rw [List.map_cons, List.foldr_cons, ih]
    rfl

end Reading

/-- **The parts of a description are read back from its lines**, if its names have
no line breaks. -/
theorem Layout.readParts_text {d : Layout} (h : d.IsConsistent) (hname : IsOneLine d.name)
    (hchannels : ∀ c ∈ d.channels, IsOneLine c.text) :
    readParts d.text = d.parts ∧ declarations d.text = d.parameters.map printedParameter := by
  have hread : ∀ c ∈ d.channels, IsReadAs [c.printed] [] [] := fun c hc =>
    Channel.isReadAs (hchannels c hc)
  constructor
  · have hnone : (d.channels.flatMap fun c => statements c.printed) = [] :=
      List.flatMap_eq_nil_iff.2 fun c hc => (hread c hc).statements_eq
    rw [readParts, (isShownBy_text h).statements_eq, (isReadAs_title hname).statements_eq, hnone]
    simp only [List.nil_append, List.append_nil, List.foldr_append, Reading.empty,
      Reading.foldr_automata, Reading.foldr_parameters]
    rfl
  · have hnone : (d.channels.flatMap fun c => declarations c.printed) = [] :=
      List.flatMap_eq_nil_iff.2 fun c hc => (hread c hc).declarations_eq
    rw [(isShownBy_text h).declarations_eq, (isReadAs_title hname).declarations_eq, hnone]
    rfl

end ProtocolInference
