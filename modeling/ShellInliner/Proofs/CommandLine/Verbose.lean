import ShellInliner.CommandLine.Run
import ShellInliner.Proofs.Run

/-! # Telling the progress

    Whether progress is told makes no other difference to a run.  `World.muted` is a
    world in which it is not told and never was; an action that is `Mutes` does there
    what it does anyway.  On the arguments the wish for progress has no effect but the
    one on the invocation that is read. -/

namespace ShellInliner.CommandLine

/-! ### Actions in a muted world -/

/-- The messages that are not about the progress. -/
def withoutProgress (ms : List Message) : List Message :=
  ms.filter fun m => !m.isProgress

/-- The world in which progress is not told, without the messages about it. -/
def World.muted (w : World) : World :=
  { w with verbose := false, messages := withoutProgress w.messages }

/-- What a run leaves, without the messages about the progress. -/
def Ending.muted (e : Ending) : Ending :=
  { e with messages := withoutProgress e.messages }

/-- The action does the same in the muted world. -/
def Mutes {α : Type} (x : Action α) : Prop :=
  ∀ w, x.run.run w.muted = ((x.run.run w).1, (x.run.run w).2.muted)

section

variable {α β : Type} {x : Action α} {f : α → Action β}

theorem muted_tell (w : World) (m : Message) : w.muted.tell m = (w.tell m).muted := by
  obtain ⟨d, verbose, output, ms⟩ := w
  cases m <;> cases verbose <;> simp [World.tell, World.muted, Message.isProgress, withoutProgress]

theorem muted_tellAll (w : World) (ms : List Message) :
    ms.foldl World.tell w.muted = (ms.foldl World.tell w).muted := by
  induction ms generalizing w with
  | nil => rfl
  | cons m ms ih => rw [List.foldl_cons, List.foldl_cons, muted_tell, ih]

theorem mutes_pure (a : α) : Mutes (pure a) :=
  fun _ => rfl

theorem mutes_throw (e : Failure) : Mutes (throw e : Action α) :=
  fun _ => rfl

theorem Mutes.bind (first : Mutes x) (next : ∀ a, Mutes (f a)) : Mutes (x >>= f) := by
  intro w
  rw [Run.run_bind, Run.run_bind, first w]
  generalize x.run.run w = between
  obtain ⟨r, w'⟩ := between
  cases r with
  | ok a => exact next a w'
  | error e => rfl

theorem mutes_disk : Mutes disk :=
  fun _ => rfl

theorem mutes_tell (m : Message) : Mutes (tell m) :=
  fun w => congrArg (Prod.mk (Except.ok ())) (muted_tell w m)

theorem mutes_printText (text : String) : Mutes (printText text) :=
  fun _ => rfl

theorem mutes_attempt (r : Run Log α) : Mutes (attempt r) :=
  fun w => congrArg (Prod.mk _) (muted_tellAll w _)

theorem mutes_change (g : Disk → Except Error Disk) : Mutes (change g) :=
  mutes_disk.bind fun _ => (mutes_attempt _).bind fun _ => fun _ => rfl

/-! ### Commands in a muted world -/

theorem mutes_requireFile (file : String) : Mutes (requireFile file) := by
  refine mutes_disk.bind fun d => ?_
  split
  · exact mutes_pure _
  · exact mutes_throw _

theorem mutes_targetOf (input : List Char) (config file : Option String) :
    Mutes (targetOf input config file) := by
  have text : Mutes (scriptText input file) := by
    cases file with
    | none => exact mutes_pure _
    | some f =>
      exact (mutes_requireFile f).bind fun _ => mutes_disk.bind fun _ => mutes_attempt _
  exact text.bind fun _ => mutes_disk.bind fun _ => (mutes_attempt _).bind fun _ => mutes_pure _

theorem mutes_deliver (text : String) (file : Option String) : Mutes (deliver text file) := by
  unfold deliver
  split
  · exact mutes_printText _
  · exact (mutes_change _).bind fun _ => mutes_tell _

theorem mutes_listExports (config : Option String) (file : String) :
    Mutes (listExports config file) := by
  refine (mutes_requireFile file).bind fun _ => mutes_disk.bind fun _ => (mutes_attempt _).bind fun _ =>
    mutes_disk.bind fun _ => (mutes_attempt _).bind fun _ => ?_
  split
  · exact (mutes_tell _).bind fun _ => mutes_printText _
  · exact mutes_printText _

theorem mutes_writeSettings : Mutes writeSettings := by
  refine mutes_disk.bind fun _ => ?_
  split
  · exact mutes_tell _
  · exact (mutes_change _).bind fun _ => mutes_tell _

/-- Every command does the same whether progress is told or not. -/
theorem mutes_perform (input : List Char) (config : Option String) (r : Request) :
    Mutes (perform input config r) := by
  cases r with
  | overview => exact mutes_printText _
  | build file output =>
    exact (mutes_targetOf input config file).bind fun _ => mutes_disk.bind fun _ =>
      (mutes_attempt _).bind fun _ => mutes_deliver _ output
  | ast file resolve =>
    exact (mutes_targetOf input config file).bind fun _ => mutes_disk.bind fun _ =>
      (mutes_attempt _).bind fun _ => mutes_deliver _ none
  | functions file => exact mutes_listExports config file
  | init => exact mutes_writeSettings

end

/-- No complaint is about the progress. -/
theorem withoutProgress_failure (f : Failure) : withoutProgress f.messages = f.messages := by
  cases f with
  | noFile file => rfl
  | cause e =>
    show withoutProgress ((e.report?.map _).toList) = (e.report?.map _).toList
    cases e.report? <;> rfl

/-- A run that does not tell its progress is the run that tells it, without the messages
    about it. -/
theorem run_muted (i : Invocation) (d : Disk) (input : List Char) :
    Invocation.run { i with verbose := false } d input = (i.run d input).muted := by
  have same := mutes_perform input i.config i.request { disk := d, verbose := i.verbose }
  have start : ({ disk := d, verbose := i.verbose } : World).muted = { disk := d, verbose := false } :=
    rfl
  unfold Invocation.run
  rw [← start, same]
  generalize (perform input i.config i.request).run.run _ = done
  obtain ⟨f | _, w⟩ := done
  · -- The complaint comes after the messages and stays.
    simp [World.ending, Ending.muted, World.muted, withoutProgress, List.filter_append]
    exact (withoutProgress_failure f).symm
  · rfl

/-! ### The wish for progress among the arguments -/

/-- What is given, and progress is told. -/
def Given.loud (g : Given) : Given :=
  { g with verbose := true }

/-- The invocation that tells its progress. -/
def Invocation.loud (i : Invocation) : Invocation :=
  { i with verbose := true }

section

variable {s : Scope} {g : Given}

theorem set_loud (s : Scope) (g : Given) (x : Setting) :
    Given.set s g.loud x = (Given.set s g x).map Given.loud := by
  obtain ⟨w, value⟩ := x
  cases w <;> rfl

theorem apply_loud (s : Scope) (g : Given) (e : Effect) (value : Option Setting) :
    g.loud.apply s e value = (g.apply s e value).map Given.loud := by
  have fold (xs : List Setting) (g : Given) :
      xs.foldlM (Given.set s) g.loud = (xs.foldlM (Given.set s) g).map Given.loud := by
    induction xs generalizing g with
    | nil => rfl
    | cons x xs ih =>
      rw [List.foldlM_cons, List.foldlM_cons, set_loud]
      cases Given.set s g x with
      | error stop => rfl
      | ok g' => exact ih g'
  exact fold _ (g.addExtras e.extra.toList)

/-- If the arguments that follow are taken alike, an effect before them changes nothing. -/
theorem taken_loud {l : List (String × Mark)} (e : Effect) (value : Option Setting)
    (after : ∀ g : Given, g.loud.collect s l = (g.collect s l).map (Prod.map Given.loud id)) :
    (g.loud.apply s e value >>= fun g' => g'.collect s l) =
      (g.apply s e value >>= fun g' => g'.collect s l).map (Prod.map Given.loud id) := by
  rw [apply_loud]
  cases g.apply s e value with
  | error stop => rfl
  | ok g' => exact after g'

/-- Arguments are taken alike, whether progress is told or not. -/
theorem collect_loud (s : Scope) (g : Given) (l : List (String × Mark)) :
    g.loud.collect s l = (g.collect s l).map (Prod.map Given.loud id) := by
  -- How an argument is taken depends on whether a file is still awaited, not on the wish.
  match l with
  | [] => rfl
  | (a, .plain) :: rest =>
    rw [Given.collect, Given.collect]
    split
    · rfl
    by_cases wanted : g.wantsFile s
    · rw [if_pos wanted, if_pos (show g.loud.wantsFile s from wanted)]
      -- A separator right after the file is passed over.
      match rest with
      | (_, .separator) :: rest' => exact collect_loud s { g with file := some a } rest'
      | [] => rfl
      | (b, .plain) :: rest' | (b, .unknown) :: rest' | (b, .known _) :: rest' =>
        exact collect_loud s { g with file := some a } _
    · rw [if_neg wanted, if_neg (show ¬g.loud.wantsFile s from wanted)]
      exact collect_loud s (g.addExtras [a]) rest
  | (a, .separator) :: rest =>
    rw [Given.collect, Given.collect]
    split
    · rfl
    by_cases wanted : g.wantsFile s
    · rw [if_pos wanted, if_pos (show g.loud.wantsFile s from wanted)]
      exact collect_loud s g rest
    · rw [if_neg wanted, if_neg (show ¬g.loud.wantsFile s from wanted)]
      exact collect_loud s (g.addExtras [a]) rest
  | (a, .unknown) :: rest => exact collect_loud s (g.addExtras [a]) rest
  | (a, .known u) :: rest =>
    rw [Given.collect, Given.collect]
    cases inScope s (Effect.ofUse s u) with
    | error stop => rfl
    | ok e =>
      -- An option that awaits its value takes the next argument, too.
      obtain ⟨settings, awaiting, extra⟩ := e
      match awaiting, rest with
      | none, rest => exact taken_loud _ none fun g' => collect_loud s g' rest
      | some w, (value, .plain) :: rest' => exact taken_loud _ _ fun g' => collect_loud s g' rest'
      | some w, [] => rfl
      | some w, (_, .separator) :: _ | some w, (_, .unknown) :: _ | some w, (_, .known _) :: _ => rfl

theorem collectAll_loud (s : Scope) (g : Given) (args : List String) :
    g.loud.collectAll s args = (g.collectAll s args).map (Prod.map Given.loud id) := by
  unfold Given.collectAll
  cases inScope s (markAll s args) with
  | error stop => rfl
  | ok marked => exact collect_loud s g marked

theorem ofGiven_loud (g : Given) (r : Request) :
    Invocation.ofGiven g.loud r = (Invocation.ofGiven g r).map Invocation.loud := by
  unfold Invocation.ofGiven
  show (if g.extras.isEmpty then _ else _) = _
  split <;> rfl

/-- The wish for progress before all other arguments is the first that is taken. -/
theorem collectAll_verbose (rest : List String) :
    Given.collectAll .program {} ("--verbose" :: rest) =
      (Given.collectAll .program {} rest).map (Prod.map Given.loud id) := by
  rw [← collectAll_loud]
  have known : mark .program "--verbose".toList = .ok (.known ⟨.verbose, .nothing⟩) := by decide
  unfold Given.collectAll
  rw [markAll, if_neg (by decide), known]
  cases markAll .program rest with
  | error f => rfl
  | ok marked =>
    show Given.collect .program {} (("--verbose", .known ⟨.verbose, .nothing⟩) :: marked) = _
    rw [Given.collect]
    rfl

/-- The wish for progress before all other arguments asks for progress and for nothing
    else. -/
theorem read_verbose (rest : List String) :
    Invocation.read ("--verbose" :: rest) = (Invocation.read rest).map Invocation.loud := by
  unfold Invocation.read
  rw [collectAll_verbose]
  cases Given.collectAll .program {} rest with
  | error stop => rfl
  | ok taken =>
    obtain ⟨g, left⟩ := taken
    cases left with
    | nil => exact ofGiven_loud g .overview
    | cons name args =>
      -- A command takes its own arguments after what is given before its name.
      dsimp only [Except.map, Prod.map, bind, Except.bind, id]
      cases Command.named? name with
      | none => rfl
      | some c =>
        dsimp only
        rw [collectAll_loud]
        cases g.collectAll (.command c) args with
        | error stop => rfl
        | ok taken =>
          obtain ⟨g', -⟩ := taken
          show (inScope (.command c) (g'.request c) >>= Invocation.ofGiven g'.loud) =
            (inScope (.command c) (g'.request c) >>= Invocation.ofGiven g').map Invocation.loud
          cases inScope (.command c) (g'.request c) with
          | error stop => rfl
          | ok r => exact ofGiven_loud g' r

end

/-! ### Both runs -/

/-- The wish for progress only adds to what is told: status, output and disk are those
    of the run without it, whose messages are left when those about the progress are
    deleted.  If the other arguments turn progress on themselves, nothing is added. -/
theorem run_verbose {rest : List String} {i : Invocation} (accepted : Invocation.read rest = .ok i)
    (d : Disk) (input : List Char) :
    let quiet := run d input rest
    let loud := run d input ("--verbose" :: rest)
    quiet.status = loud.status ∧ quiet.output = loud.output ∧ quiet.disk = loud.disk ∧
    (i.verbose = false →
      quiet.messages = withoutProgress loud.messages ∧
      quiet.errorOutput = String.join ((withoutProgress loud.messages).map Message.print)) ∧
    (i.verbose = true → quiet = loud) := by
  intro quiet loud
  have first : quiet = i.run d input := by
    show run d input rest = _
    rw [run, accepted]
  have second : loud = i.loud.run d input := by
    show run d input ("--verbose" :: rest) = _
    rw [run, read_verbose, accepted]
    rfl
  cases wish : i.verbose with
  | true =>
    have same : i.loud = i := by rw [Invocation.loud, ← wish]
    rw [same, ← first] at second
    rw [second]
    exact ⟨rfl, rfl, rfl, fun off => absurd off Bool.noConfusion, fun _ => rfl⟩
  | false =>
    have unheard : { i.loud with verbose := false } = i := by rw [Invocation.loud, ← wish]
    have muted := run_muted i.loud d input
    rw [unheard, ← first, ← second] at muted
    rw [muted]
    exact ⟨rfl, rfl, rfl, fun _ => ⟨rfl, rfl⟩, fun on => absurd on Bool.noConfusion⟩

/-- An empty directory. -/
def emptyDirectory : Disk :=
  Disk.blank "/w".toList "/home".toList

theorem run_verbose_build :
    let quiet := run emptyDirectory "a\n".toList ["build", "-o", "out"]
    let loud := run emptyDirectory "a\n".toList ["--verbose", "build", "-o", "out"]
    quiet.status = .ok 0 ∧ quiet.status = loud.status ∧ quiet.disk = loud.disk ∧
    loud.messages.length = 5 ∧ quiet.messages = [.news "Wrote out"] ∧
    quiet.messages = withoutProgress loud.messages := by
  have accepted : Invocation.read ["build", "-o", "out"] = .ok ⟨false, none, .build none (some "out")⟩ := by
    decide +kernel
  obtain ⟨status, -, disk, told, -⟩ := run_verbose accepted emptyDirectory "a\n".toList
  exact ⟨by decide +kernel, status, disk, by decide +kernel, by decide +kernel, (told rfl).1⟩

/-- A run that is asked for progress twice tells it as well as the one that is asked
    once: there is nothing to delete. -/
theorem run_verbose_twice :
    ∃ rest i, Invocation.read rest = .ok i ∧
      (run emptyDirectory ['a'] rest).errorOutput ≠
        String.join ((withoutProgress (run emptyDirectory ['a'] ("--verbose" :: rest)).messages).map
          Message.print) :=
  ⟨["--verbose", "build"], ⟨true, none, .build none none⟩, by decide +kernel, by decide +kernel⟩

end ShellInliner.CommandLine
