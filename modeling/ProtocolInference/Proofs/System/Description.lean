import ProtocolInference.Proofs.Automaton.History
import ProtocolInference.Proofs.Event.Label
import ProtocolInference.Proofs.System.Inserted
import ProtocolInference.Proofs.System.Reading

/-!
A description holds together.

Three things have to be known of a system for its description to use what it
declares and nothing else: transitions lead to states that there are, events
happen on channels that there are, and no event is in the alphabet without a
transition on it (`layout_isConsistent`). All three hold of a finished system
and are kept when invariants are traced; for the channels this is so because
each call takes the next index and sends on no other.

The labels of a tracer channel come to the text on two ways, as the payload of
the sends and in the pattern of the bad states. The payload is brought into
the form of an identifier once more, and agrees with the pattern because an
identifier stays as it is.

All this concerns the parts of the description. They are what its lines show if
the system and its channels have names without line breaks; labels are brought
into a form that has none, but names are printed as they are, and a channel may
have a name that declares labels (`misnaming_declares_labels`).
-/

namespace ProtocolInference

namespace Automaton

variable {a : Automaton} {s : StateId} {l : TransitionLine}

theorem mem_lines_stateBlock_iff :
    l ∈ (a.stateBlock s).lines ↔ ∃ f y, a.Step s f y ∧ l = ⟨y, f.toAction⟩ := by
  rw [stateBlock, List.mem_map]
  constructor
  · rintro ⟨⟨f, y⟩, hstep, rfl⟩
    exact ⟨f, y, hstep, rfl⟩
  · rintro ⟨f, y, hstep, rfl⟩
    exact ⟨(f, y), hstep, rfl⟩

theorem mem_lines_block_iff :
    l ∈ a.block.states.flatMap (·.lines) ↔ ∃ x f y, a.Step x f y ∧ l = ⟨y, f.toAction⟩ := by
  rw [block, List.mem_flatMap]
  constructor
  · rintro ⟨_, hblock, hl⟩
    obtain ⟨x, -, rfl⟩ := List.mem_map.1 hblock
    exact ⟨x, mem_lines_stateBlock_iff.1 hl⟩
  · rintro ⟨x, f, y, hstep, rfl⟩
    refine ⟨a.stateBlock x, List.mem_map.2 ⟨x, List.mem_range.2 hstep.lt_size, rfl⟩, ?_⟩
    exact mem_lines_stateBlock_iff.2 ⟨f, y, hstep, rfl⟩

theorem exists_stateBlock (h : a.IsClosed) (hl : l ∈ (a.stateBlock s).lines) :
    ∃ block ∈ a.block.states, block.number = l.target := by
  obtain ⟨f, y, hstep, rfl⟩ := mem_lines_stateBlock_iff.1 hl
  exact ⟨a.stateBlock y, List.mem_map.2 ⟨y, List.mem_range.2 (h _ _ _ hstep), rfl⟩, rfl⟩

end Automaton

namespace System

variable {sys traced t t' : System} {pid : ProcessId} {e f : Event} {x : StateId}
variable {inv : Invariant} {invs : List Invariant} {k index : Nat} {name : String}

/-! ### What is kept -/

/-- The events of the processes happen on channels below the index. -/
def HappensBelow (sys : System) (index : Nat) : Prop :=
  ∀ pid f c, sys.Performs pid f → f.channel? = some c → c.index < index

/-- The events of the processes happen on channels of the system. -/
def IsOnChannels (sys : System) : Prop := sys.HappensBelow sys.allChannels.length

theorem IsFinished.isOnChannels (h : sys.IsFinished) : sys.IsOnChannels := by
  rintro pid f c ⟨a, x, y, ha, hstep⟩ hc
  have htracer := h.isTracerEvent_eq_false ha hstep
  rw [isTracerEvent, hc, Option.any_some, isTracer, decide_eq_false_iff_not, Nat.not_le] at htracer
  rw [length_allChannels]
  exact Nat.lt_add_right _ htracer

theorem allChannels_of_trace (htrace : t.trace inv = .ok (t', index)) :
    t'.allChannels = t.allChannels ++ [t.tracerChannel t.tracers.size inv.first.pid] := by
  have hchannels := ((AddsSends.refl t).trace htrace).channels_eq
  obtain ⟨hnew, -, final, -, rfl, -⟩ := trace_eq_ok.1 htrace
  have hnone : t.tracers.get? inv = none := by simpa [OrderedMap.contains] using hnew
  rw [allChannels, allChannels, OrderedMap.values_insert hnone, hchannels, List.append_assoc]

/-- The call takes the next index and sends on no other new channel. -/
theorem IsOnChannels.trace (h : t.IsOnChannels) (htrace : t.trace inv = .ok (t', index)) :
    t'.IsOnChannels := by
  have hlength : t'.allChannels.length = t.allChannels.length + 1 := by
    rw [allChannels_of_trace htrace, List.length_append, List.length_singleton]
  have key : t'.channels = t.channels ∧ t'.HappensBelow (t.allChannels.length + 1) := by
    refine trace_induction (P := fun u => u.channels = t.channels ∧
      u.HappensBelow (t.allChannels.length + 1)) (fun e _ u u' hstep hu => ?_) (fun _ _ hu => hu)
      htrace ⟨rfl, fun pid f c hf hc => Nat.lt_succ_of_lt (h pid f c hf hc)⟩
    refine ⟨(traceEvent_eq_ok hstep).1.trans hu.1, fun pid f c hf hc => ?_⟩
    rcases performs_of_traceEvent hstep hf with hold | rfl
    · exact hu.2 pid f c hold hc
    · obtain rfl := Option.some.inj hc
      show u.channels.length + t.tracers.size < _
      rw [hu.1, length_allChannels]
      exact Nat.lt_succ_self _
  rw [IsOnChannels, hlength]
  exact key.2

theorem arises_of_traceEvent (h : ∀ a ∈ t.automata, a.Arises) (htrace : t.traceEvent k e = .ok t') :
    ∀ a ∈ t'.automata, a.Arises := by
  intro b hb
  obtain ⟨pid, hpid⟩ := List.mem_iff_getElem?.1 hb
  rcases (traceEvent_eq_ok htrace).2.2 pid b hpid with ⟨-, hold⟩ | ⟨-, a, ha, hab⟩
  · exact h b (List.mem_of_getElem? hold)
  · exact (h a (List.mem_of_getElem? ha)).trace hab

theorem arises_of_trace (h : ∀ a ∈ t.automata, a.Arises) (htrace : t.trace inv = .ok (t', index)) :
    ∀ a ∈ t'.automata, a.Arises :=
  trace_induction (P := fun u => ∀ a ∈ u.automata, a.Arises)
    (fun _ _ _ _ hstep hu => arises_of_traceEvent hu hstep) (fun _ _ hu => hu) htrace h

/-- What a description relies on. -/
structure IsDescribable (sys : System) : Prop where
  closed : sys.IsClosed
  onChannels : sys.IsOnChannels
  arises : ∀ a ∈ sys.automata, a.Arises

theorem IsDescribable.traceAll (h : sys.IsDescribable) (htrace : sys.traceAll invs = .ok traced) :
    traced.IsDescribable :=
  traceAll_induction (fun _ _ _ _ _ hstep ht =>
    ⟨ht.closed.trace hstep, ht.onChannels.trace hstep, arises_of_trace ht.arises hstep⟩)
    htrace h

/-! ### The parts of the description -/

/-- The lines of the layout are the steps of the automata. -/
theorem mem_lines_layout_iff {l : TransitionLine} :
    l ∈ (sys.layout name).lines ↔
      ∃ pid a x f y, sys.automaton? pid = some a ∧ a.Step x f y ∧ l = ⟨y, f.toAction⟩ := by
  rw [Layout.lines, layout, List.mem_flatMap]
  constructor
  · rintro ⟨_, hblock, hl⟩
    obtain ⟨a, ha, rfl⟩ := List.mem_map.1 hblock
    obtain ⟨pid, hpid⟩ := List.mem_iff_getElem?.1 ha
    obtain ⟨x, f, y, hstep, rfl⟩ := Automaton.mem_lines_block_iff.1 hl
    exact ⟨pid, a, x, f, y, hpid, hstep, rfl⟩
  · rintro ⟨pid, a, x, f, y, ha, hstep, rfl⟩
    refine ⟨a.block, List.mem_map_of_mem (List.mem_of_getElem? ha), ?_⟩
    exact Automaton.mem_lines_block_iff.2 ⟨x, f, y, hstep, rfl⟩

/-- The labels that are declared are those of the events that the processes do. -/
theorem mem_messageLabels_iff (h : ∀ a ∈ sys.automata, a.Arises) {label : String} :
    label ∈ sys.messageLabels.toList ↔ ∃ pid f, sys.Performs pid f ∧ f.messageLabel = label := by
  rw [← OrderedSet.mem_def, messageLabels, OrderedSet.mem_ofList, List.mem_map]
  constructor
  · rintro ⟨f, hf, rfl⟩
    rw [← OrderedSet.mem_def, alphabet, OrderedSet.mem_ofList, List.mem_flatMap] at hf
    obtain ⟨a, ha, hf⟩ := hf
    obtain ⟨x, y, hstep⟩ := (h a ha).mem_alphabet_iff.1 hf
    obtain ⟨pid, hpid⟩ := List.mem_iff_getElem?.1 ha
    exact ⟨pid, f, ⟨a, x, y, hpid, hstep⟩, rfl⟩
  · rintro ⟨pid, f, ⟨a, x, y, ha, hstep⟩, rfl⟩
    refine ⟨f, ?_, rfl⟩
    rw [← OrderedSet.mem_def, alphabet, OrderedSet.mem_ofList, List.mem_flatMap]
    exact ⟨a, List.mem_of_getElem? ha, hstep.mem_alphabet⟩

theorem channel?_toAction (f : Event) : f.toAction.channel? = f.channel?.map (·.index) := by
  cases f <;> rfl

theorem IsDescribable.isConsistent (h : sys.IsDescribable) : (sys.layout name).IsConsistent := by
  constructor
  case target_mem =>
    intro _ hblock _ hstate l hl
    obtain ⟨a, ha, rfl⟩ := List.mem_map.1 hblock
    obtain ⟨x, -, rfl⟩ := List.mem_map.1 hstate
    exact Automaton.exists_stateBlock (h.closed a ha) hl
  case channel_lt =>
    intro l hl index hindex
    obtain ⟨pid, a, x, f, y, ha, hstep, rfl⟩ := mem_lines_layout_iff.1 hl
    rw [channel?_toAction, Option.map_eq_some_iff] at hindex
    obtain ⟨c, hc, rfl⟩ := hindex
    exact h.onChannels pid f c ⟨a, x, y, ha, hstep⟩ hc
  case declared_once =>
    intro l hl
    obtain ⟨pid, a, x, f, y, ha, hstep, rfl⟩ := mem_lines_layout_iff.1 hl
    refine List.count_eq_one_of_mem sys.messageLabels.nodup ?_
    refine (mem_messageLabels_iff h.arises).2 ⟨pid, f, ⟨a, x, y, ha, hstep⟩, ?_⟩
    exact (Event.label_toAction f).symm
  case used =>
    intro label hlabel
    obtain ⟨pid, f, ⟨a, x, y, ha, hstep⟩, rfl⟩ := (mem_messageLabels_iff h.arises).1 hlabel
    exact ⟨_, mem_lines_layout_iff.2 ⟨pid, a, x, f, y, ha, hstep, rfl⟩,
      Event.label_toAction f⟩
  case isIdentifier =>
    intro label hlabel
    obtain ⟨pid, f, -, rfl⟩ := (mem_messageLabels_iff h.arises).1 hlabel
    exact f.isIdentifier_messageLabel

/-! ### Records -/

theorem text_record (c : Channel) (e : Event) :
    (Event.send c e.tracerLabel).toAction.text = toString c.index ++ " ! " ++ e.tracerLabel := by
  show toString c.index ++ " ! " ++ identifier e.tracerLabel = _
  rw [e.isIdentifier_tracerLabel.identifier_eq]

/-- What the description shows of a state that has been inserted for an event: the
lines out of it send the label of the event in the pattern, on the channel on
which the bad states ask for the pattern. -/
def ShowsRecord (traced : System) (name : String) (inv : Invariant) (e : Event) (x : StateId) :
    Prop :=
  ∃ k bad a s, traced.badStates inv = .ok bad ∧ traced.IsCover inv k bad ∧
    (traced.layout name).automata[e.pid]? = some a ∧ a.states[x]? = some s ∧ s.number = x ∧
    s.lines ≠ [] ∧ (∀ l ∈ s.lines, l.action.text = toString k ++ " ! " ++ e.tracerLabel) ∧
    (inv.relation ≠ .eventually → ∀ label,
      label ∈ inv.violation.labels ↔ ∃ f ∈ inv.events, f.tracerLabel = label)

theorem InsertedFor.showsRecord (h : sys.InsertedFor invs inv e x) (hsys : sys.IsFinished)
    (hclosed : sys.IsClosed) (htrace : sys.traceAll invs = .ok traced) :
    traced.ShowsRecord name inv e x := by
  obtain ⟨c, k, hc, hindex, b, hb, hx, hsteps⟩ := h.leavesBy hsys hclosed htrace
  obtain ⟨-, hledger⟩ := ledger_of_traceAll hsys hclosed htrace
  refine ⟨c.index, _, b.block, b.stateBlock x, by rw [badStates, hc], hledger.isCover hsys hc,
    ?_, ?_, rfl, ?_, ?_, fun hrelation _ => inv.mem_labels_violation_iff hrelation⟩
  · show (traced.automata.map _)[e.pid]? = _
    rw [List.getElem?_map]
    exact congrArg (Option.map _) hb
  · show ((List.range b.size).map b.stateBlock)[x]? = _
    rw [List.getElem?_map, List.getElem?_range hx]
    rfl
  · obtain ⟨y, hstep⟩ := (hsteps _).2 rfl
    exact List.ne_nil_of_mem (Automaton.mem_lines_stateBlock_iff.2 ⟨_, y, hstep, rfl⟩)
  · intro l hl
    obtain ⟨f, y, hstep, rfl⟩ := Automaton.mem_lines_stateBlock_iff.1 hl
    obtain rfl := (hsteps f).1 ⟨y, hstep⟩
    rw [hindex]
    exact text_record (sys.tracerChannel k e.pid) e

/-! ### Names -/

theorem isOneLine_text_of_traceAll (hsys : sys.IsFinished) (htrace : sys.traceAll invs = .ok traced)
    (hnames : ∀ c ∈ sys.channels, ∀ n ∈ c.name, IsOneLine n) :
    ∀ c ∈ traced.allChannels, IsOneLine c.text := by
  have hall : ∀ c ∈ traced.allChannels, ∀ n ∈ c.name, IsOneLine n := by
    refine traceAll_induction (P := fun t => ∀ c ∈ t.allChannels, ∀ n ∈ c.name, IsOneLine n)
      (fun inv _ t t' index hstep ht => ?_) htrace ?_
    · intro c hc
      rw [allChannels_of_trace hstep] at hc
      rcases List.mem_append.1 hc with hold | hnew
      · exact ht c hold
      · obtain rfl := List.mem_singleton.1 hnew
        rintro n ⟨rfl⟩
        exact isOneLine_append (by decide) (isWord_repr _).1
    · rw [allChannels, hsys.tracers_eq]
      simpa [OrderedMap.values] using hnames
  exact fun c hc => c.isOneLine_text (hall c hc)

/-! ### The text -/

/-- **A description uses what it declares**, and the records of the events are
printed with the label and on the channel that the bad states speak of. The lines
of the text show its parts, if no name has line breaks; otherwise they show what
the names say as well. -/
theorem description_uses_what_it_declares (hsys : sys.IsFinished) (hclosed : sys.IsClosed)
    (harises : ∀ a ∈ sys.automata, a.Arises) (htrace : sys.traceAll invs = .ok traced)
    (name : String) :
    traced.describe name = (traced.layout name).text ∧ (traced.layout name).IsConsistent ∧
    (∀ {pid x}, Appears sys traced pid x →
      ∃ inv e, e.pid = pid ∧ sys.InsertedFor invs inv e x) ∧
    (∀ {inv e x}, sys.InsertedFor invs inv e x → traced.ShowsRecord name inv e x) ∧
    (traced.layout name).IsShownBy (traced.describe name) ∧
    (IsOneLine name → (∀ c ∈ sys.channels, ∀ n ∈ c.name, IsOneLine n) →
      readParts (traced.describe name) = (traced.layout name).parts ∧
      declarations (traced.describe name) =
        (traced.layout name).parameters.map printedParameter) := by
  have hdescribable : sys.IsDescribable := ⟨hclosed, hsys.isOnChannels, harises⟩
  have hconsistent : (traced.layout name).IsConsistent :=
    (hdescribable.traceAll htrace).isConsistent
  rw [describe_eq_text]
  exact ⟨rfl, hconsistent, exists_insertedFor htrace, fun h => h.showsRecord hsys hclosed htrace,
    Layout.isShownBy_text hconsistent, fun hname hnames =>
      Layout.readParts_text hconsistent hname (isOneLine_text_of_traceAll hsys htrace hnames)⟩

theorem oneStep_arises : ∀ a ∈ oneStep.automata, a.Arises := by
  intro a ha
  obtain rfl := List.mem_singleton.1 ha
  exact Automaton.arises_oneStep

theorem oneStep_description_uses_what_it_declares :
    ∃ traced inv e, oneStep.traceAll [precededB, followedA] = .ok traced ∧
      (traced.layout "one").IsConsistent ∧
      oneStep.InsertedFor [precededB, followedA] inv e 2 ∧ traced.ShowsRecord "one" inv e 2 ∧
      readParts (traced.describe "one") = (traced.layout "one").parts := by
  have hok : (oneStep.traceAll [precededB, followedA]).map (·.automata) = .ok [oneStepTraced] := by
    cbv
  obtain ⟨traced, htrace, hautomata⟩ := map_eq_ok.1 hok
  obtain ⟨-, hconsistent, hinserted, hshows, -, hread⟩ := description_uses_what_it_declares
    oneStep_isFinished oneStep_isClosed oneStep_arises htrace "one"
  have happears : Appears oneStep traced 0 2 := by
    refine ⟨_, oneStepTraced, rfl, ?_, by decide, by decide⟩
    rw [automaton?, hautomata]
    rfl
  obtain ⟨inv, e, -, h⟩ := hinserted happears
  have hnames : ∀ c ∈ oneStep.channels, ∀ n ∈ c.name, IsOneLine n := fun c hc =>
    absurd hc List.not_mem_nil
  exact ⟨traced, inv, e, htrace, hconsistent, h, hshows h, (hread (by decide) hnames).1⟩

/-- A channel whose name ends the comment and begins the parameters. -/
def misnamed : Channel :=
  ⟨0, 1, 0, some "x\n*/\n\nparameters :\nreal bogus ;\nreal m ;\n/*"⟩

/-- One process sends a message on the channel, and the other receives it. -/
def misnaming : System :=
  ⟨[misnamed], [.oneStep 0 (.send misnamed "m"), .oneStep 1 (.receive misnamed "m")], ∅⟩

/-- The lines of the description declare a label that no transition uses, and the
label that all of them use twice. -/
theorem misnaming_declares_labels :
    misnaming.IsFinished ∧ misnaming.IsClosed ∧ (∀ a ∈ misnaming.automata, a.Arises) ∧
      declarations (misnaming.describe "demo") = ["real bogus ;", "real m ;", "real m ;"] ∧
      ∀ l ∈ (misnaming.layout "demo").lines, l.action.label = "m" := by
  have harises : ∀ a ∈ misnaming.automata, a.Arises := by
    simp only [misnaming, List.forall_mem_cons]
    exact ⟨Automaton.arises_oneStep, Automaton.arises_oneStep, nofun⟩
  have hclosed : misnaming.IsClosed := by
    show ∀ a ∈ misnaming.automata, a.IsClosed
    simp only [misnaming, List.forall_mem_cons]
    exact ⟨Automaton.isClosed_oneStep, Automaton.isClosed_oneStep, nofun⟩
  have hfinished : misnaming.IsFinished := ⟨2, [misnamed], misnaming.automata, _, rfl, rfl⟩
  have hshown : (misnaming.layout "demo").IsShownBy (misnaming.describe "demo") := by
    have hdescribable : misnaming.IsDescribable := ⟨hclosed, hfinished.isOnChannels, harises⟩
    rw [describe_eq_text]
    exact Layout.isShownBy_text hdescribable.isConsistent
  refine ⟨hfinished, hclosed, harises, hshown.declarations_eq.trans ?_, by decide⟩
  have htitle : declarations (misnaming.layout "demo").title = [] := by cbv
  have hchannel : declarations misnamed.printed = ["real bogus ;", "real m ;"] := by cbv
  show declarations (misnaming.layout "demo").title ++ (declarations misnamed.printed ++ []) ++
    ["m"].map printedParameter = _
  rw [htitle, hchannel]
  decide

end System

end ProtocolInference
