import BalancedLinks.Proofs.Building
import Mathlib.Data.List.TakeWhile

/-!
# How the command ends

A command line is not understood exactly if an argument is at fault or one of the texts given for keys is no
numeral of a finite number; the run then says why and how the command is called, and prints nothing. Every
other run comes to print the graph of its request, since the tree fails at nothing on the way there, and what
printing it raises is all that still decides.

The main statement is `Command.run_classified`.
-/

set_option autoImplicit false

namespace BalancedLinks

/-- Whether a text consists of blanks. -/
def Blank (text : String) : Prop :=
  ∀ c ∈ text.toList, isBlank c = true

instance (text : String) : Decidable (Blank text) :=
  inferInstanceAs (Decidable (∀ c ∈ text.toList, isBlank c = true))

/-- A blank text is no numeral. -/
theorem ofText?_of_blank {text : String} (h : Blank text) : Number.ofText? text = none := by
  have hdrop : text.toList.dropWhile isBlank = [] := List.dropWhile_eq_nil_iff.mpr h
  have htrim : trimBlanks text.toList = [] := by
    rw [trimBlanks, hdrop]
    rfl
  rw [Number.ofText?, htrim]
  rfl

namespace Command

/-! ## Faults -/

/--
Whether a command line is not understood, for the reason given: its arguments are at fault, or else some text is
no key, and those before it are, where all plain texts are before all texts to erase.
-/
inductive Faulty (arguments : List String) : UsageFault → Prop
  | argument {fault : ArgumentFault} (read : Arguments.read arguments = .error fault) :
      Faulty arguments (.argument fault)
  | badKey {a : Arguments} {before after : List String} {text : String}
      (read : Arguments.read arguments = .ok a) (split : a.plain ++ a.erase = before ++ text :: after)
      (good : ∀ t ∈ before, ∃ key, Reads t key) (bad : Blank text ∨ ∀ key, ¬ Reads text key) :
      Faulty arguments (.badKey text)

/-- A text that is blank or no numeral of a finite number is refused as a key. -/
theorem readKey_eq_error_of_bad {text : String} (h : Blank text ∨ ∀ key, ¬ Reads text key) :
    readKey text = .error (.badKey text) := by
  apply (readKey_eq_error_iff text _).mpr
  refine ⟨?_, rfl⟩
  rcases h with hblank | hbad
  · intro key hreads
    cases (ofText?_of_blank hblank).symm.trans hreads
  · exact hbad

/-- A command line is refused with the fault of reading all its keys one after the other. -/
theorem readRequest_of_read {arguments : List String} {a : Arguments} (h : Arguments.read arguments = .ok a)
    (fault : UsageFault) :
    readRequest arguments = .error fault ↔ (a.plain ++ a.erase).mapM readKey = .error fault := by
  rw [List.mapM_append]
  unfold readRequest
  simp only [h]
  cases a.plain.mapM readKey with
  | error e => simp [bind, Except.bind]
  | ok keys =>
    cases a.erase.mapM readKey with
    | error e => simp [bind, Except.bind]
    | ok erase => simp [bind, Except.bind, pure, Except.pure]

/-- A command line is refused for one fault exactly, the first there is. -/
theorem readRequest_eq_error_iff (arguments : List String) (fault : UsageFault) :
    readRequest arguments = .error fault ↔ Faulty arguments fault := by
  cases hread : Arguments.read arguments with
  | error e =>
    have hrequest : readRequest arguments = .error (.argument e) := by simp only [readRequest, hread]
    rw [hrequest]
    constructor
    · intro h
      obtain rfl := Except.error.inj h
      exact .argument hread
    · rintro (⟨hread'⟩ | ⟨hread', -, -, -⟩)
      · rw [Except.error.inj (hread.symm.trans hread')]
      · cases hread.symm.trans hread'
  | ok a =>
    rw [readRequest_of_read hread, mapM_eq_error_iff]
    constructor
    · rintro ⟨before, text, after, hsplit, hgood, hbad⟩
      obtain ⟨hnone, rfl⟩ := (readKey_eq_error_iff text fault).mp hbad
      exact .badKey hread hsplit (fun t ht => (hgood t ht).imp fun key => (readKey_eq_ok_iff t key).mp) (Or.inr hnone)
    · rintro (⟨hread'⟩ | ⟨hread', hsplit, hgood, hbad⟩)
      · cases hread.symm.trans hread'
      · obtain rfl := Except.ok.inj (hread.symm.trans hread')
        exact ⟨_, _, _, hsplit, fun t ht => (hgood t ht).imp fun key => (readKey_eq_ok_iff t key).mpr,
          readKey_eq_error_of_bad hbad⟩

/-! ## Endings -/

/-- The run of a command line that is not understood. -/
def refusal (fault : UsageFault) (logger : Level) : Run :=
  { exit := .code 2, printed := []
    log := [LogLine.plain .error fault.message, .plain .error usage].filter fun line => logger.keeps line.level }

/-- A run with a faulty command line is a refusal. -/
theorem run_of_faulty {arguments : List String} {fault : UsageFault} (h : Faulty arguments fault) (logger : Level)
    (verify : Bool) (print : String → Except PrintError Unit) :
    run arguments logger verify print = refusal fault logger := by
  simp only [run, (readRequest_eq_error_iff arguments fault).mpr h]
  rfl

/-- None of the remarks on a tree is an error. -/
theorem level_of_mem_report {keys erase : List Key} {size height : Nat} {line : LogLine}
    (h : line ∈ report keys erase size height) : line.level ≠ .error := by
  simp only [report, onRepeats, List.mem_append, List.mem_map, List.mem_singleton] at h
  rcases h with (hrepeats | ⟨key, -, rfl⟩) | rfl
  · split_ifs at hrepeats
    · cases hrepeats
    · obtain rfl := List.mem_singleton.mp hrepeats
      exact Level.noConfusion
  · exact Level.noConfusion
  · exact Level.noConfusion

/-- A run that is understood comes to print one text, and has logged no error until then. -/
theorem run_of_understood {arguments : List String} (h : ∀ fault, ¬ Faulty arguments fault) (logger : Level)
    (verify : Bool) :
    ∃ text log, (∀ line ∈ log, line.level ≠ .error) ∧
      ∀ print, run arguments logger verify print = ending text log logger (print text) := by
  obtain ⟨request, hrequest⟩ : ∃ request, readRequest arguments = .ok request := by
    cases hread : readRequest arguments with
    | ok request => exact ⟨request, rfl⟩
    | error fault => exact absurd ((readRequest_eq_error_iff arguments fault).mp hread) (h fault)
  obtain ⟨left, height, graph, log, -, -, hremarks, hrun⟩ := run_of_request hrequest logger verify
  refine ⟨graph.render, log, ?_, hrun⟩
  intro line hline herror
  have hremark : line ∈ remarks log := by
    refine List.mem_filter.mpr ⟨hline, ?_⟩
    simp [herror]
  rw [hremarks] at hremark
  exact level_of_mem_report (List.mem_of_mem_filter hremark) herror

/--
How every run ends. With 2 exactly if its command line is not understood: whatever printing would do, it then logs
why and how the command is called, and nothing else. Any other run prints one text, having logged no error; it ends
with 1, and one error logged, exactly if that raises a tree error, raises what else it raises, and ends with 0 if
it raises nothing.
-/
theorem run_classified (arguments : List String) (logger : Level) (verify : Bool) :
    (∀ print, (run arguments logger verify print).exit = .code 2 ↔ ∃ fault, Faulty arguments fault) ∧
      (∀ fault, Faulty arguments fault → ∀ print, run arguments logger verify print = refusal fault logger) ∧
      ((∀ fault, ¬ Faulty arguments fault) → ∃ text log, (∀ line ∈ log, line.level ≠ .error) ∧
        ∀ print, run arguments logger verify print = ending text log logger (print text)) := by
  refine ⟨?_, fun fault hfaulty => run_of_faulty hfaulty logger verify, fun h => run_of_understood h logger verify⟩
  intro print
  constructor
  · intro hexit
    by_contra hunderstood
    obtain ⟨text, log, -, hrun⟩ := run_of_understood (fun fault hfaulty => hunderstood ⟨fault, hfaulty⟩) logger verify
    rw [hrun] at hexit
    unfold ending at hexit
    split at hexit
    · cases hexit
    · cases hexit
    · cases hexit
  · rintro ⟨fault, hfaulty⟩
    rw [run_of_faulty hfaulty]
    rfl

/-- Of two texts that are no keys, the plain one is reported; without them, the run ends as printing does. -/
theorem run_classified_words :
    (∀ print, run ["--erase", "y", "1", "x"] .info false print = refusal (.badKey "x") .info) ∧
      ∃ text log, (∀ line ∈ log, line.level ≠ .error) ∧
        ∀ print, run ["--erase", "2", "1"] .info true print = ending text log .info (print text) := by
  have hread : Arguments.read ["--erase", "y", "1", "x"] = .ok ⟨["1", "x"], ["y"], false⟩ := by decide +kernel
  have hgood : ∀ t ∈ ["1"], ∃ key, Reads t key := by
    intro t ht
    obtain rfl := List.mem_singleton.mp ht
    refine ⟨⟨.ofInt 1, by decide +kernel⟩, ?_⟩
    unfold Reads
    decide +kernel
  have hbad : ∀ key, ¬ Reads "x" key := by
    intro key hreads
    have hnone : Number.ofText? "x" = none := by decide +kernel
    cases hnone.symm.trans hreads
  have hfaulty : Faulty ["--erase", "y", "1", "x"] (.badKey "x") := .badKey hread rfl hgood (Or.inr hbad)
  have hunderstood : ∀ fault, ¬ Faulty ["--erase", "2", "1"] fault := by
    intro fault hfaulty
    have hrequest : (readRequest ["--erase", "2", "1"]).toBool = true := by decide +kernel
    rw [(readRequest_eq_error_iff _ fault).mpr hfaulty] at hrequest
    cases hrequest
  obtain ⟨-, hrefused, -⟩ := run_classified ["--erase", "y", "1", "x"] .info false
  obtain ⟨-, -, hended⟩ := run_classified ["--erase", "2", "1"] .info true
  exact ⟨hrefused _ hfaulty, hended hunderstood⟩

/--
Where the logger keeps no errors, a run that printing ends with 1 logs none; and an error of the general class is a
tree error too.
-/
theorem run_printing_refused :
    run ["1"] .silent false (fun _ => .error (.tree ⟨.precondition, "stdout refused"⟩)) = ⟨.code 1, [], []⟩ ∧
      (run ["1"] .info false fun _ => .error (.tree ⟨.general .precondition, "stdout refused"⟩)).exit =
        .code 1 := by
  constructor <;> decide +kernel

end Command

end BalancedLinks
