import ShellInliner.CommandLine.Run
import ShellInliner.Proofs.Disk.Writing
import ShellInliner.Proofs.Run

/-! # What runs leave behind

    A command first looks at everything that may go wrong, and what it then prints or
    writes comes last.  So a run that fails has printed nothing and changed nothing.  A
    run that succeeds changes one file at most: the one that a script is built into, or
    the one with the default settings.

    `Unwritten` says that nothing has been printed or written between two worlds.
    What only looks at the world keeps to it however it ends; what prints or writes
    keeps to it if it fails. -/

namespace ShellInliner.CommandLine

open Run (Keeps Chains run_bind run_bind_ok exists_of_run_bind)

/-! ### Nothing printed or written -/

/-- Nothing has been printed or written from one world to the other. -/
structure Unwritten (w w' : World) : Prop where
  /-- The disk is the same. -/
  disk : w'.disk = w.disk
  /-- So is the output. -/
  output : w'.output = w.output

/-- Nothing has been written. -/
def SameDisk (w w' : World) : Prop :=
  w'.disk = w.disk

instance : Chains Unwritten where
  refl _ := ⟨rfl, rfl⟩
  trans _ _ _ h h' := ⟨h'.disk.trans h.disk, h'.output.trans h.output⟩

instance : Chains SameDisk where
  refl _ := rfl
  trans _ _ _ h h' := Eq.trans h' h

section

variable {α β : Type} {w w' : World} {x : Action α} {f : α → Action β}

theorem unwritten_tell (w : World) (m : Message) : Unwritten w (w.tell m) := by
  unfold World.tell
  split <;> exact ⟨rfl, rfl⟩

theorem unwritten_tellAll (w : World) (ms : List Message) : Unwritten w (ms.foldl World.tell w) := by
  induction ms generalizing w with
  | nil => exact ⟨rfl, rfl⟩
  | cons m ms ih =>
    have first := unwritten_tell w m
    have others := ih (w.tell m)
    exact ⟨others.disk.trans first.disk, others.output.trans first.output⟩

/-- What comes after a quiet action decides whether something is written. -/
theorem sameDisk_after (quiet : Keeps Unwritten x) (next : ∀ a, Keeps SameDisk (f a)) :
    Keeps SameDisk (x >>= f) :=
  Keeps.bind (fun w => (quiet w).disk) next

theorem keeps_disk : Keeps Unwritten disk :=
  Keeps.bind Keeps.get fun _ => Keeps.pure _

theorem keeps_tell (m : Message) : Keeps Unwritten (tell m) :=
  Keeps.modify fun w => unwritten_tell w m

theorem keeps_attempt (r : Run Log α) : Keeps Unwritten (attempt r) :=
  fun w => unwritten_tellAll w _

theorem keeps_requireFile (file : String) : Keeps Unwritten (requireFile file) := by
  refine Keeps.bind keeps_disk fun d => ?_
  split
  · exact Keeps.pure _
  · exact Keeps.throw _

theorem keeps_scriptText (input : List Char) (file : Option String) :
    Keeps Unwritten (scriptText input file) := by
  cases file with
  | none => exact Keeps.pure _
  | some f =>
    exact Keeps.bind (keeps_requireFile f) fun _ => Keeps.bind keeps_disk fun _ => keeps_attempt _

theorem keeps_targetOf (input : List Char) (config file : Option String) :
    Keeps Unwritten (targetOf input config file) :=
  Keeps.bind (keeps_scriptText input file) fun _ => Keeps.bind keeps_disk fun _ =>
    Keeps.bind (keeps_attempt _) fun _ => Keeps.pure _

/-! ### Failing without a trace -/

/-- If the action fails, it has printed and written nothing. -/
def FailsClean (x : Action α) : Prop :=
  ∀ w e w', x.run.run w = (.error e, w') → Unwritten w w'

/-- The action never fails. -/
def Succeeds (x : Action α) : Prop :=
  ∀ w, ∃ a w', x.run.run w = (.ok a, w')

theorem failsClean_of_keeps (quiet : Keeps Unwritten x) : FailsClean x := by
  intro w e w' ended
  have kept := quiet w
  rwa [ended] at kept

theorem Succeeds.failsClean (succeeds : Succeeds x) : FailsClean x := by
  intro w e w' ended
  obtain ⟨a, w₁, success⟩ := succeeds w
  rw [success] at ended
  cases ended

/-- What comes after a quiet action may print and write, if it fails clean. -/
theorem FailsClean.after (quiet : Keeps Unwritten x) (next : ∀ a, FailsClean (f a)) :
    FailsClean (x >>= f) := by
  intro w e w' ended
  have kept := quiet w
  rw [run_bind] at ended
  generalize x.run.run w = between at kept ended
  obtain ⟨r, w₁⟩ := between
  cases r with
  | ok a => exact Chains.trans _ _ _ kept (next a _ _ _ ended)
  | error e =>
    -- The quiet action fails, and nothing comes after it.
    cases ended
    exact kept

/-- What comes last may do anything, if it never fails. -/
theorem FailsClean.before (first : FailsClean x) (last : ∀ a, Succeeds (f a)) :
    FailsClean (x >>= f) := by
  intro w e w' ended
  rw [run_bind] at ended
  generalize run : x.run.run w = between at ended
  obtain ⟨r, w₁⟩ := between
  cases r with
  | ok a =>
    obtain ⟨b, w₂, success⟩ := last a w₁
    cases success.symm.trans ended
  | error e =>
    cases ended
    exact first _ _ _ run

theorem succeeds_modify (g : World → World) : Succeeds (modify g : Action Unit) :=
  fun w => ⟨(), g w, rfl⟩

theorem failsClean_change (g : Disk → Except Error Disk) : FailsClean (change g) :=
  .after keeps_disk fun _ => .before (failsClean_of_keeps (keeps_attempt _)) fun _ => succeeds_modify _

theorem failsClean_deliver (text : String) (file : Option String) : FailsClean (deliver text file) := by
  unfold deliver
  split
  · exact (succeeds_modify _).failsClean
  · exact .before (failsClean_change _) fun _ => succeeds_modify _

theorem failsClean_listExports (config : Option String) (file : String) :
    FailsClean (listExports config file) := by
  refine .after (keeps_requireFile file) fun _ => .after keeps_disk fun _ =>
    .after (keeps_attempt _) fun _ => .after keeps_disk fun _ => .after (keeps_attempt _) fun es => ?_
  have print := (succeeds_modify _ : Succeeds (printText (lines (es.map exportLine)))).failsClean
  split
  · exact .after (keeps_tell _) fun _ => print
  · exact print

theorem failsClean_writeSettings : FailsClean writeSettings := by
  refine .after keeps_disk fun _ => ?_
  split
  · exact failsClean_of_keeps (keeps_tell _)
  · -- The news is told after the file is written, and telling never fails.
    exact .before (failsClean_change _) fun _ => succeeds_modify _

/-- A command that fails has printed and written nothing. -/
theorem failsClean_perform (input : List Char) (config : Option String) (r : Request) :
    FailsClean (perform input config r) := by
  cases r with
  | overview => exact (succeeds_modify _).failsClean
  | build file output =>
    exact .after (keeps_targetOf input config file) fun _ => .after keeps_disk fun _ =>
      .after (keeps_attempt _) fun _ => failsClean_deliver _ output
  | ast file resolve =>
    exact .after (keeps_targetOf input config file) fun _ => .after keeps_disk fun _ =>
      .after (keeps_attempt _) fun _ => failsClean_deliver _ none
  | functions file => exact failsClean_listExports config file
  | init => exact failsClean_writeSettings

/-! ### What success means -/

/-- Work on a script succeeds if the work does. -/
theorem exists_of_attempt {r : Run Log α} {a : α} (ended : (attempt r).run.run w = (.ok a, w')) :
    (∃ log, r.run.run [] = (.ok a, log)) ∧ Unwritten w w' := by
  have kept := keeps_attempt r w
  rw [ended] at kept
  refine ⟨?_, kept⟩
  have result : (r.run.run []).1.mapError Failure.cause = .ok a := congrArg Prod.fst ended
  generalize r.run.run [] = done at result ⊢
  obtain ⟨e | b, log⟩ := done
  · cases result
  · cases result
    exact ⟨log, rfl⟩

theorem ok_of_attempt_lift {e : Except Error α} {a : α}
    (ended : (attempt (Run.lift e)).run.run w = (.ok a, w')) : e = .ok a ∧ Unwritten w w' := by
  obtain ⟨⟨log, run⟩, kept⟩ := exists_of_attempt ended
  rw [Run.run_lift] at run
  exact ⟨congrArg Prod.fst run, kept⟩

/-- What is written to the disk is what is left of it. -/
theorem exists_of_change {g : Disk → Except Error Disk} (ended : (change g).run.run w = (.ok (), w')) :
    g w.disk = .ok w'.disk := by
  obtain ⟨d, w₁, looked, rest⟩ := exists_of_run_bind ended
  cases looked
  obtain ⟨written, w₂, done, last⟩ := exists_of_run_bind rest
  obtain ⟨ok, -⟩ := ok_of_attempt_lift done
  cases last
  exact ok

theorem ok_of_requireFile {file : String} (ended : (requireFile file).run.run w = (.ok (), w')) :
    w' = w := by
  obtain ⟨d, w₁, looked, rest⟩ := exists_of_run_bind ended
  cases looked
  split at rest
  · cases rest
    rfl
  · cases rest

/-- The text of a script: that of its file, or that of the standard input with line ends
    of one form. -/
def sourceOf (d : Disk) (input : List Char) : Option String → Except Error (List Char)
  | none => .ok (Text.unifyLineEnds input)
  | some file => d.readText file.toList

theorem ok_of_scriptText {input source : List Char} {file : Option String}
    (ended : (scriptText input file).run.run w = (.ok source, w')) :
    sourceOf w.disk input file = .ok source ∧ Unwritten w w' := by
  have kept := keeps_scriptText input file w
  rw [ended] at kept
  refine ⟨?_, kept⟩
  cases file with
  | none =>
    -- Standard input is there already, so nothing was done.
    cases ended
    rfl
  | some f =>
    obtain ⟨_, w₁, there, rest⟩ := exists_of_run_bind ended
    obtain rfl := ok_of_requireFile there
    obtain ⟨d, w₂, looked, read⟩ := exists_of_run_bind rest
    cases looked
    exact (ok_of_attempt_lift read).1

/-- The script that is worked on has the text that is there and the settings that are
    there. -/
theorem exists_of_targetOf {input : List Char} {config file : Option String} {t : Target}
    (ended : (targetOf input config file).run.run w = (.ok t, w')) :
    ∃ source settings, sourceOf w.disk input file = .ok source ∧
      Settings.load w.disk config = .ok settings ∧ t = ⟨file, some source, settings⟩ ∧
      Unwritten w w' := by
  have kept := keeps_targetOf input config file w
  rw [ended] at kept
  obtain ⟨source, w₁, read, rest⟩ := exists_of_run_bind ended
  -- The settings are asked for on the disk that the script was read from.
  obtain ⟨text, same⟩ := ok_of_scriptText read
  obtain ⟨d, w₂, looked, rest⟩ := exists_of_run_bind rest
  cases looked
  obtain ⟨settings, w₃, loaded, last⟩ := exists_of_run_bind rest
  obtain ⟨load, -⟩ := ok_of_attempt_lift loaded
  rw [same.disk] at load
  cases last
  exact ⟨source, settings, text, load, rfl, kept⟩

/-- A text that is delivered to a file is what the disk gains. -/
theorem gains_of_deliver {text file : String} (named : file ≠ "")
    (ended : (deliver text (some file)).run.run w = (.ok (), w')) :
    w.disk.Gains file.toList (text ++ "\n") w'.disk := by
  have filled : Report.filled (some file) = some file := by
    simp [Report.filled, Option.filter, named]
  unfold deliver at ended
  rw [filled] at ended
  obtain ⟨_, w₁, written, told⟩ := exists_of_run_bind ended
  cases told
  rw [(unwritten_tell w₁ _).disk]
  exact Disk.gains_of_writeText (exists_of_change written)

/-- The default settings are written where nothing stands. -/
theorem ok_of_writeSettings (ended : writeSettings.run.run w = (.ok (), w')) :
    if w.disk.pathExists Settings.fileName.toList then w'.disk = w.disk
    else w.disk.Gains Settings.fileName.toList ({} : Settings).text w'.disk := by
  obtain ⟨d, w₁, looked, rest⟩ := exists_of_run_bind ended
  cases looked
  split
  · rename_i there
    -- Settings that are there are left alone, with a message.
    rw [if_pos there] at rest
    cases rest
    exact (unwritten_tell w _).disk
  · rename_i absent
    rw [if_neg absent] at rest
    obtain ⟨_, w₁, written, told⟩ := exists_of_run_bind rest
    cases told
    rw [(unwritten_tell w₁ _).disk]
    exact Disk.gains_of_writeText (exists_of_change written)

/-! ### Requests that write nothing -/

/-- The file that a request asks to be written, if it asks for one. -/
def Request.written? : Request → Option String
  | .build _ output => Report.filled output
  | .init => some Settings.fileName
  | _ => none

theorem sameDisk_printText (text : String) : Keeps SameDisk (printText text) :=
  Keeps.modify fun _ => rfl

theorem sameDisk_deliver {text : String} {file : Option String} (printed : Report.filled file = none) :
    Keeps SameDisk (deliver text file) := by
  unfold deliver
  rw [printed]
  exact sameDisk_printText _

theorem sameDisk_listExports (config : Option String) (file : String) :
    Keeps SameDisk (listExports config file) := by
  refine sameDisk_after (keeps_requireFile file) fun _ => sameDisk_after keeps_disk fun _ =>
    sameDisk_after (keeps_attempt _) fun _ => sameDisk_after keeps_disk fun _ =>
    sameDisk_after (keeps_attempt _) fun _ => ?_
  split
  · exact sameDisk_after (keeps_tell _) fun _ => sameDisk_printText _
  · exact sameDisk_printText _

/-- A command that is not asked to write leaves the disk as it is, however it ends. -/
theorem sameDisk_perform (input : List Char) (config : Option String) {r : Request}
    (asks : r.written? = none) : Keeps SameDisk (perform input config r) := by
  cases r with
  | overview => exact sameDisk_printText _
  | build file output =>
    exact sameDisk_after (keeps_targetOf input config file) fun _ => sameDisk_after keeps_disk fun _ =>
      sameDisk_after (keeps_attempt _) fun _ => sameDisk_deliver asks
  | ast file resolve =>
    exact sameDisk_after (keeps_targetOf input config file) fun _ => sameDisk_after keeps_disk fun _ =>
      sameDisk_after (keeps_attempt _) fun _ => sameDisk_deliver rfl
  | functions file => exact sameDisk_listExports config file
  | init => cases asks

end

/-! ### Runs -/

/-- What a run leaves, by what it is asked for and how it ends. -/
structure Stage.FailsFast (t : Stage) : Prop where
  /-- A run that fails or is broken off has printed nothing and changed nothing. -/
  failed : t.ending.status ≠ .ok 0 → t.ending.output = "" ∧ t.ending.disk = t.before
  /-- A run that is not asked to write changes nothing: one that shows a list, a tree or a
      help text, or that builds a script and prints it. -/
  unasked : (∀ i, Invocation.read t.order.args = .ok i → i.request.written? = none) →
    t.ending.disk = t.before
  /-- A script that is built into a file ends up there, with its imports inlined. -/
  built : ∀ i file output, Invocation.read t.order.args = .ok i →
    i.request = .build file (some output) → output ≠ "" → t.ending.status = .ok 0 →
    ∃ source settings text log, sourceOf t.before t.order.input file = .ok source ∧
      Settings.load t.before i.config = .ok settings ∧
      ((⟨file, some source, settings⟩ : Target).compile t.before).run.run [] = (.ok text, log) ∧
      t.before.Gains output.toList (text ++ "\n") t.ending.disk
  /-- The default settings are written if nothing stands in their place. -/
  settled : ∀ i, Invocation.read t.order.args = .ok i → i.request = .init →
    t.ending.status = .ok 0 →
    if t.before.pathExists Settings.fileName.toList then t.ending.disk = t.before
    else t.before.Gains Settings.fileName.toList ({} : Settings).text t.ending.disk

theorem Failure.status_ne (f : Failure) : f.status ≠ .ok 0 := by
  cases f with
  | noFile file => simp [status]
  | cause e =>
    show (if e.report?.isSome then Except.ok 1 else .error e) ≠ .ok 0
    split <;> simp

section

variable {i : Invocation} {d : Disk} {input : List Char} {w : World}

/-- A run ends well exactly if its command succeeds. -/
theorem exists_of_status (ended : (i.run d input).status = .ok 0) :
    ∃ w, (perform input i.config i.request).run.run { disk := d, verbose := i.verbose } =
      (.ok (), w) ∧ (i.run d input).disk = w.disk := by
  unfold Invocation.run at ended ⊢
  generalize (perform input i.config i.request).run.run _ = done at ended ⊢
  obtain ⟨_ | ⟨⟩, w⟩ := done
  · exact absurd ended (Failure.status_ne _)
  · exact ⟨w, rfl, rfl⟩

/-- A run that does not end well has failed. -/
theorem unwritten_of_status (ended : (i.run d input).status ≠ .ok 0) :
    (i.run d input).output = "" ∧ (i.run d input).disk = d := by
  have clean := failsClean_perform input i.config i.request { disk := d, verbose := i.verbose }
  unfold Invocation.run at ended ⊢
  generalize (perform input i.config i.request).run.run _ = done at ended clean ⊢
  obtain ⟨f | _, w⟩ := done
  · have same := clean f w rfl
    exact ⟨same.output, same.disk⟩
  · exact absurd rfl ended

theorem disk_of_unasked (asks : i.request.written? = none) : (i.run d input).disk = d := by
  have same := sameDisk_perform input i.config asks { disk := d, verbose := i.verbose }
  unfold Invocation.run
  generalize (perform input i.config i.request).run.run _ = done at same ⊢
  obtain ⟨_ | _, w⟩ := done <;> exact same

/-- What a script is built to is what its file holds. -/
theorem gains_of_build {file : Option String} {output : String} (named : output ≠ "")
    (ended : (perform input i.config (.build file (some output))).run.run
      { disk := d, verbose := i.verbose } = (.ok (), w)) :
    ∃ source settings text log, sourceOf d input file = .ok source ∧
      Settings.load d i.config = .ok settings ∧
      ((⟨file, some source, settings⟩ : Target).compile d).run.run [] = (.ok text, log) ∧
      d.Gains output.toList (text ++ "\n") w.disk := by
  obtain ⟨t, w₁, taken, rest⟩ := exists_of_run_bind ended
  obtain ⟨source, settings, read, load, rfl, same₁⟩ := exists_of_targetOf taken
  obtain ⟨d', w₂, looked, rest⟩ := exists_of_run_bind rest
  cases looked
  obtain ⟨text, w₃, compiled, delivered⟩ := exists_of_run_bind rest
  obtain ⟨⟨log, compile⟩, same₃⟩ := exists_of_attempt compiled
  have gains := gains_of_deliver named delivered
  -- Only the last step writes, so the script was compiled on the disk as it was.
  rw [same₁.disk] at compile
  rw [same₃.disk, same₁.disk] at gains
  exact ⟨source, settings, text, log, read, load, compile, gains⟩

end

/-- Every single run fails fast. -/
theorem failsFast_run (d : Disk) (o : Order) : Stage.FailsFast ⟨d, o, run d o.input o.args⟩ := by
  cases read : Invocation.read o.args with
  | error stop =>
    -- No command is carried out.
    have ending : run d o.input o.args = stop.ending d := by
      unfold run
      rw [read]
    have none (i : Invocation) : Invocation.read o.args ≠ .ok i := by simp [read]
    refine ⟨fun ended => ?_, fun _ => ?_, fun i _ _ ok => absurd ok (none i), fun i ok => absurd ok (none i)⟩
    · simp only [ending] at ended ⊢
      cases stop with
      | help s => exact absurd rfl ended
      | refused s f => exact ⟨rfl, rfl⟩
    · simp only [ending]
      cases stop <;> rfl
  | ok i =>
    have ending : run d o.input o.args = i.run d o.input := by
      unfold run
      rw [read]
    have only {j : Invocation} (ok : Invocation.read o.args = .ok j) : j = i :=
      (Except.ok.inj (read.symm.trans ok)).symm
    constructor
    · rw [ending]
      exact unwritten_of_status
    · rw [ending]
      exact fun asks => disk_of_unasked (asks i read)
    · rw [ending]
      intro j file output ok request named ended
      obtain rfl := only ok
      obtain ⟨w, done, disk⟩ := exists_of_status ended
      rw [request] at done
      simp only [disk]
      exact gains_of_build named done
    · rw [ending]
      intro j ok request ended
      obtain rfl := only ok
      obtain ⟨w, done, disk⟩ := exists_of_status ended
      rw [request] at done
      simp only [disk]
      exact ok_of_writeSettings done

/-! ### One run after the other -/

/-- What a run changes is what it is asked to write. -/
theorem Stage.FailsFast.exists_written {t : Stage} (fast : t.FailsFast) {l : Disk.Location}
    (changed : t.ending.disk.item? l ≠ t.before.item? l) :
    t.ending.status = .ok 0 ∧ ∃ i path, Invocation.read t.order.args = .ok i ∧
      i.request.written? = some path ∧ t.before.follow path.toList = .ok l := by
  have ended : t.ending.status = .ok 0 := by
    by_contra failed
    exact changed (by rw [(fast.failed failed).2])
  -- The place that a file is gained at is the only one that changes.
  have place {path text : String} (gains : t.before.Gains path.toList text t.ending.disk) :
      t.before.follow path.toList = .ok l := by
    obtain ⟨m, leads, -, others⟩ := gains.frame
    by_cases same : l = m
    · rw [same, leads]
    · exact absurd (others l same) changed
  refine ⟨ended, ?_⟩
  by_contra unasked
  refine changed (congrArg (Disk.item? · l) (fast.unasked fun i read => ?_))
  cases asked : i.request.written? with
  | none => rfl
  | some path =>
    refine absurd ⟨i, path, read, asked, ?_⟩ unasked
    cases request : i.request with
    | build file output =>
      rw [request] at asked
      obtain ⟨rfl, named⟩ := Option.filter_eq_some_iff.mp asked
      obtain ⟨_, _, _, _, -, -, -, gains⟩ :=
        fast.built i file path read request (by simpa using named) ended
      exact place gains
    | init =>
      rw [request] at asked
      cases asked
      have settled := fast.settled i read request ended
      split at settled
      · exact absurd (by rw [settled]) changed
      · exact place settled
    | overview | ast | functions =>
      rw [request] at asked
      cases asked

/-- The disk that several runs leave. -/
def diskAfter (d : Disk) (os : List Order) : Disk :=
  os.foldl (fun d o => (run d o.input o.args).disk) d

/-- In any sequence of runs each one fails fast: if it does not end well it has printed
    and changed nothing, and if it does it has changed one file at most, as it was asked
    to.  So whatever is different after all of them was written by one that ended well
    and was asked for it. -/
theorem runAll_failsFast (d : Disk) (os : List Order) :
    (∀ t ∈ runAll d os, t.FailsFast) ∧
    ∀ l, (diskAfter d os).item? l ≠ d.item? l → ∃ t ∈ runAll d os, t.ending.status = .ok 0 ∧
      ∃ i path, Invocation.read t.order.args = .ok i ∧ i.request.written? = some path ∧
        t.before.follow path.toList = .ok l := by
  induction os generalizing d with
  | nil => exact ⟨by simp [runAll], fun l changed => absurd rfl changed⟩
  | cons o os ih =>
    have first := failsFast_run d o
    obtain ⟨later, written⟩ := ih (run d o.input o.args).disk
    refine ⟨List.forall_mem_cons.mpr ⟨first, later⟩, fun l changed => ?_⟩
    -- A place that is different in the end was changed by the first run or by a later one.
    by_cases here : (run d o.input o.args).disk.item? l = d.item? l
    · rw [← here] at changed
      obtain ⟨t, mem, wrote⟩ := written l changed
      exact ⟨t, List.mem_cons_of_mem _ mem, wrote⟩
    · exact ⟨_, List.mem_cons_self .., first.exists_written here⟩

/-- A directory with a script and the file that it imports. -/
def twoScripts : Disk :=
  let directory := Disk.blank "/w".toList "/home".toList
  let main := directory.makeFile ["w".toList, "main.sh".toList] (Text.encode "import lib\n")
  main.makeFile ["w".toList, "lib.sh".toList] (Text.encode "f() { a; }\n")

/-- Build a script into a file, into a directory, and from a file that is not there. -/
def threeBuilds : List Order :=
  [⟨[], ["build", "main.sh", "-o", "out.sh"]⟩, ⟨[], ["build", "main.sh", "-o", "."]⟩,
    ⟨[], ["build", "gone.sh", "-o", "out.sh"]⟩]

theorem runAll_failsFast_builds :
    (runAll twoScripts threeBuilds).map (·.ending.status) =
      [.ok 0, .error (.access ⟨.isDirectory, "."⟩), .ok 1] ∧
    (∀ t ∈ runAll twoScripts threeBuilds, t.FailsFast) ∧
    (diskAfter twoScripts threeBuilds).item? ["w".toList, "out.sh".toList] ≠
      twoScripts.item? ["w".toList, "out.sh".toList] ∧
    ∃ t ∈ runAll twoScripts threeBuilds, t.ending.status = .ok 0 ∧
      ∃ i path, Invocation.read t.order.args = .ok i ∧ i.request.written? = some path ∧
        t.before.follow path.toList = .ok ["w".toList, "out.sh".toList] := by
  have changed : (diskAfter twoScripts threeBuilds).item? ["w".toList, "out.sh".toList] ≠
      twoScripts.item? ["w".toList, "out.sh".toList] := by decide +kernel
  obtain ⟨each, written⟩ := runAll_failsFast twoScripts threeBuilds
  exact ⟨by decide +kernel, each, changed, written _ changed⟩

end ShellInliner.CommandLine
