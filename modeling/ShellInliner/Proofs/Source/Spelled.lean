import ShellInliner.Proofs.Parse.Pieces
import ShellInliner.Proofs.Parse.Script
import ShellInliner.Proofs.Source.Phrases

/-! # How the texts of a script are spelled

    A word of a tree that was read is one that its terminal took somewhere, and so is
    the name of a command, a function or a loop variable; a redirection has one of
    the operators and a file descriptor without too many digits. -/

namespace ShellInliner.Parse

open Grammar Node

/-! ### What terminals take -/

theorem takes_word_of_command {text : List Char} (h : Terminal.commandWord.Takes text) :
    Terminal.word.Takes text := by
  obtain ⟨rest, taken⟩ := h
  exact ⟨rest, (commandWordLength?_eq_some.mp taken).2.2⟩

theorem mem_redirectOperators_of_takes {op : List Char} (h : Terminal.redirectOperator.Takes op) :
    op ∈ redirectOperators := by
  obtain ⟨rest, taken⟩ := h
  obtain ⟨found, find, length⟩ := Option.map_eq_some_iff.mp taken
  have starts : found.isPrefixOf (op ++ rest) = true := by simpa using List.find?_some find
  obtain ⟨after, eq⟩ := List.isPrefixOf_iff_prefix.mp starts
  obtain ⟨rfl, -⟩ := List.append_inj eq length
  exact List.mem_of_find?_eq_some find

theorem ne_nil_of_takes {t : Terminal} {text : List Char} (h : t.Takes text) : text ≠ [] := by
  obtain ⟨rest, taken⟩ := h
  exact List.ne_nil_of_length_pos (Terminal.length?_bounds taken).1

/-! ### Spelled nodes -/

/-- The texts in a node are such as terminals take. -/
structure Spelled (n : Node) : Prop where
  /-- A word is one somewhere. -/
  word : n.kind = .word → Terminal.word.Takes (charactersOf n)
  /-- So is an assignment. -/
  assignment : n.kind = .assignmentWord → Terminal.assignmentWord.Takes (charactersOf n)
  /-- A redirection has an operator, and its file descriptor is a number without too
      many digits. -/
  redirection : ∀ op number, n.head = .redirect op number → op.toList ∈ redirectOperators ∧
    ∀ i ∈ number, ∃ k : Nat, i = Int.ofNat k ∧ (Nat.toDigits 10 k).length ≤ digitLimit
  /-- The name of a command names one somewhere. -/
  commandName : n.kind = .command → ∀ m ∈ n.all .name, Terminal.commandWord.Takes (charactersOf m)
  /-- So does the name of a function. -/
  functionName : n.kind = .function → ∀ m ∈ n.all .name, Terminal.functionName.Takes (charactersOf m)
  /-- The name of a loop variable is an identifier. -/
  loopName : n.kind = .forLoop → ∀ m ∈ n.all .name, Terminal.name.Takes (charactersOf m)

/-- The kinds of the nodes whose texts matter. -/
def namers : List Kind :=
  [.word, .assignmentWord, .redirect, .command, .function, .forLoop]

section

variable {m n : Node} {h : Head} {fields : List (Field × List Node)}

theorem spelled_of_kind (other : n.kind ∉ namers) : Spelled n where
  word kind := absurd (by rw [kind]; decide) other
  assignment kind := absurd (by rw [kind]; decide) other
  redirection op number head := by
    have kind : n.kind = .redirect := congrArg Head.kind head
    exact absurd (by rw [kind]; decide) other
  commandName kind := absurd (by rw [kind]; decide) other
  functionName kind := absurd (by rw [kind]; decide) other
  loopName kind := absurd (by rw [kind]; decide) other

/-- Nothing but the kind, the text, the attributes of a redirection and the name counts. -/
theorem Spelled.congr (spelled : Spelled n) (kind : m.kind = n.kind) (text : m.text? = n.text?)
    (head : n.kind = .redirect → m.head = n.head) (name : m.all .name = n.all .name) : Spelled m where
  word k := by
    rw [charactersOf, text]
    exact spelled.word (kind.symm.trans k)
  assignment k := by
    rw [charactersOf, text]
    exact spelled.assignment (kind.symm.trans k)
  redirection op number same := by
    have k : m.kind = .redirect := congrArg Head.kind same
    exact spelled.redirection op number ((head (kind.symm.trans k)).symm.trans same)
  commandName k := by
    rw [name]
    exact spelled.commandName (kind.symm.trans k)
  functionName k := by
    rw [name]
    exact spelled.functionName (kind.symm.trans k)
  loopName k := by
    rw [name]
    exact spelled.loopName (kind.symm.trans k)

theorem Spelled.inBackground (spelled : Spelled n) : Spelled (n.withHead n.head.inBackground) := by
  refine spelled.congr (kind_inBackground n.head) ?_ (fun kind => ?_) rfl
  · show n.head.inBackground.text? = n.head.text?
    cases n.head <;> rfl
  · show n.head.inBackground = n.head
    have kind : n.head.kind = .redirect := kind
    cases head : n.head <;> rw [head] at kind <;> first | rfl | cases kind

/-- The steps in which symbols make nodes keep texts as they are. -/
theorem hereditary_spelled (loc : Option Extent) : Hereditary namers loc (Throughout Spelled) where
  join h cs other below := throughout_iff.mpr ⟨spelled_of_kind other, below⟩
  part n spelled := (throughout_iff.mp spelled).2
  recast n spelled := throughout_withHead spelled.here.inBackground spelled
  place n spelled :=
    throughout_iff.mpr ⟨spelled.here.congr rfl rfl (fun _ => rfl) rfl, (throughout_iff.mp spelled).2⟩
  -- The field of redirections is not that of the name.
  extend n rs spelled others := by
    have name : ((n.withLast .redirections rs).withLoc loc).all .name = n.all .name :=
      (all_withLast n _ _ rs).trans (if_neg (by decide))
    refine throughout_iff.mpr ⟨spelled.here.congr rfl rfl (fun _ => rfl) name, fun c hc => ?_⟩
    exact of_mem_withLast (throughout_iff.mp spelled).2 others hc
  single n spelled := throughout_assemble (spelled_of_kind (by decide : Kind.compoundList ∉ namers))
    (by simpa using spelled)
  empty := throughout_assemble (spelled_of_kind (by decide : Kind.compoundList ∉ namers)) (by simp)

/-! ### Words and names -/

theorem charactersOf_wordNode {h : String → Head} (word : h = .word ∨ h = .assignmentWord)
    (l : Option Extent) (text : List Char) : charactersOf (wordNode h l text) = text := by
  rcases word with rfl | rfl <;> exact String.toList_ofList

theorem charactersOf_name (l : Option Extent) (text : List Char) :
    charactersOf (.mk (.name (String.ofList text)) l []) = text :=
  String.toList_ofList

/-- Nothing below a word has a text that matters. -/
theorem throughout_wordNode {h : String → Head} {text : List Char}
    (here : Spelled (wordNode h none text)) : Throughout Spelled (wordNode h none text) := by
  refine throughout_iff.mpr ⟨here, fun c hc => ?_⟩
  obtain ⟨-, expansion⟩ := Word.mem_expansionChildren hc
  have other : c.2.kind ∉ namers := by
    have kind := expansion.kind
    revert kind
    cases c.2.kind <;> decide
  refine throughout_iff.mpr ⟨spelled_of_kind other, fun d hd => ?_⟩
  rw [expansion.leaf] at hd
  cases hd

theorem spelled_word {text : List Char} (taken : Terminal.word.Takes text) :
    Throughout Spelled (wordNode .word none text) := by
  apply throughout_wordNode
  have characters := charactersOf_wordNode (.inl rfl) none text
  exact ⟨fun _ => characters.symm ▸ taken, nofun, nofun, nofun, nofun, nofun⟩

theorem spelled_assignment {text : List Char} (taken : Terminal.assignmentWord.Takes text) :
    Throughout Spelled (wordNode .assignmentWord none text) := by
  apply throughout_wordNode
  have characters := charactersOf_wordNode (.inr rfl) none text
  exact ⟨nofun, fun _ => characters.symm ▸ taken, nofun, nofun, nofun, nofun⟩

theorem spelled_name (text : String) : Throughout Spelled (.mk (.name text) none []) :=
  throughout_iff.mpr ⟨spelled_of_kind (by decide : Kind.name ∉ namers), fun c hc => by cases hc⟩

/-- What is made of a lexeme is spelled as its terminal takes it. -/
theorem spelled_pieces {l : Lexeme} (taken : Taken l) :
    ∀ n ∈ allNodes l.pieces, Throughout Spelled n := by
  obtain ⟨t, text⟩ := l
  have takes (other : t ≠ .newline) : t.Takes text := taken other
  cases t with
  | word => simpa [Lexeme.pieces, tokenPieces] using spelled_word (takes (by decide))
  -- What names a command is also a word.
  | commandWord =>
    have word := takes_word_of_command (takes (by decide))
    simpa [Lexeme.pieces, tokenPieces] using spelled_word word
  | assignmentWord =>
    simpa [Lexeme.pieces, tokenPieces] using spelled_assignment (takes (by decide))
  | name | functionName => simpa [Lexeme.pieces, tokenPieces] using spelled_name _
  | reserved r => cases r <;> simp [Lexeme.pieces, tokenPieces]
  | sign s => cases s <;> simp [Lexeme.pieces, tokenPieces]
  | _ => simp [Lexeme.pieces, tokenPieces]

end

/-! ### Symbols that give names -/

section

variable {s : Symbol} {w : List Lexeme} {ps qs : List Piece}

theorem spelled_simpleCommand (h : anyReads Makings Symbol.simpleCommand.alternatives w ps)
    (taken : ∀ l ∈ w, Taken l) (all : ∀ n ∈ allNodes ps, Throughout Spelled n)
    (made : symbolPieces .simpleCommand none ps = .ok qs) :
    ∀ n ∈ allNodes qs, Throughout Spelled n := by
  obtain ⟨leading, rest, rfl, before, named, -⟩ := exists_command_parts h
  have parts : ∀ n ∈ leading ++ rest, Throughout Spelled n := fun n hn =>
    all n (mem_allNodes (by rwa [nodesOf_map_node]))
  have made : Except.ok [.node (simpleCommand none ((leading ++ rest).map .node))] = Except.ok qs :=
    made
  rw [simpleCommand_of_parts before named] at made
  cases made
  -- The name comes from a token that was taken as one.
  have here : Spelled (assemble (.command false) none
      [(.name, rest.take 1), (.leading, leading), (.suffix, rest.drop 1)]) := by
    refine ⟨nofun, nofun, nofun, fun _ m hm => ?_, nofun, nofun⟩
    obtain ⟨t, mem, rfl⟩ := named m (by simpa [all_assemble] using hm)
    rw [charactersOf_wordNode (.inl rfl)]
    exact taken _ mem nofun
  have spelled := throughout_assemble here (by
    simp only [List.forall_mem_cons, List.not_mem_nil, false_implies, implies_true, and_true]
    exact ⟨fun n hn => parts n (List.mem_append_right _ (List.mem_of_mem_take hn)),
      fun n hn => parts n (List.mem_append_left _ hn),
      fun n hn => parts n (List.mem_append_right _ (List.mem_of_mem_drop hn))⟩)
  simpa using spelled

theorem spelled_redirect (h : anyReads Makings Symbol.redirect.alternatives w ps)
    (taken : ∀ l ∈ w, Taken l) (made : symbolPieces .redirect none ps = .ok qs) :
    ∀ n ∈ allNodes qs, Throughout Spelled n := by
  have redirect {op t : List Char} (number : Option Nat) (operator : Terminal.redirectOperator.Takes op)
      (word : Terminal.word.Takes t)
      (few : ∀ k ∈ number, (Nat.toDigits 10 k).length ≤ digitLimit) :
      Throughout Spelled (assemble (.redirect (String.ofList op) (number.map Int.ofNat)) none
        [(.file, [wordNode .word none t])]) := by
    refine throughout_assemble ⟨nofun, nofun, ?_, nofun, nofun, nofun⟩ (by simpa using spelled_word word)
    rintro _ _ ⟨⟩
    rw [String.toList_ofList]
    refine ⟨mem_redirectOperators_of_takes operator, fun i hi => ?_⟩
    obtain ⟨k, hk, rfl⟩ := Option.map_eq_some_iff.mp hi
    exact ⟨k, rfl, few k hk⟩
  obtain ⟨digits, op, file, r, rfl, redirection, rfl⟩ := exists_redirect_parts h made
  obtain ⟨few, rfl⟩ := redirectNode?_eq_some redirection
  have spelled := redirect (digits.map Text.digitsValue)
    (taken ⟨.redirectOperator, op⟩ (by simp) nofun) (taken ⟨.word, file⟩ (by simp) nofun) (by
      intro k hk
      obtain ⟨ds, hds, rfl⟩ := Option.map_eq_some_iff.mp hk
      -- The number has no more digits than were read.
      have digits : Terminal.ioNumber.Takes ds := taken ⟨.ioNumber, ds⟩ (by simp [hds]) nofun
      exact Nat.le_trans (length_toDigits_digitsValue (ne_nil_of_takes digits)) (few ds hds))
  simpa using spelled

theorem spelled_forClause (h : anyReads Makings Symbol.forClause.alternatives w ps)
    (taken : ∀ l ∈ w, Taken l) (all : ∀ n ∈ allNodes ps, Throughout Spelled n)
    (made : symbolPieces .forClause none ps = .ok qs) :
    ∀ n ∈ allNodes qs, Throughout Spelled n := by
  obtain ⟨t, b, ws, parts, mem, -⟩ := exists_forClause_parts h
  -- The name comes from a token of the loop itself.
  have here : Spelled (assemble (.forLoop false) none
      [(.name, [.mk (.name (String.ofList t)) none []]), (.loopBody, [b]), (.wordlist, ws)]) := by
    refine ⟨nofun, nofun, nofun, nofun, nofun, fun _ m hm => ?_⟩
    obtain rfl : m = .mk (.name (String.ofList t)) none [] := by simpa [all_assemble] using hm
    rw [charactersOf_name]
    exact taken _ mem nofun
  rcases parts with rfl | ⟨rfl, rfl⟩
  · cases made
    have each : (∀ n ∈ ws, Throughout Spelled n) ∧ Throughout Spelled b := by
      simpa [or_imp, forall_and, spelled_name] using all
    simpa using throughout_assemble here (by simpa [spelled_name] using ⟨each.2, each.1⟩)
  · cases made
    have spelled := throughout_assemble here (by simpa [spelled_name] using all)
    intro n hn
    obtain rfl := List.mem_singleton.mp hn
    exact spelled

theorem spelled_functionDefinition (h : anyReads Makings Symbol.functionDefinition.alternatives w ps)
    (taken : ∀ l ∈ w, Taken l) (all : ∀ n ∈ allNodes ps, Throughout Spelled n)
    (made : symbolPieces .functionDefinition none ps = .ok qs) :
    ∀ n ∈ allNodes qs, Throughout Spelled n := by
  obtain ⟨t, body, rs, rfl, mem, -⟩ := exists_function_parts h
  have made : Except.ok [.node (assemble (.function false) none
      [(.name, [.mk (.name (String.ofList t)) none []]), (.body, [listBody body]),
        (.redirections, nodesOf (rs.map .node))])] = Except.ok qs := made
  rw [nodesOf_map_node] at made
  cases made
  simp only [allNodes_node, List.forall_mem_cons] at all
  -- The body is the command itself or a list around it.
  have list : Throughout Spelled (listBody body) := by
    unfold listBody
    split
    · exact all.2.1
    · exact (hereditary_spelled none).single body all.2.1
  have others : ∀ r ∈ rs, Throughout Spelled r := fun r hr =>
    all.2.2 r (mem_allNodes (by rwa [nodesOf_map_node]))
  have here : Spelled (assemble (.function false) none
      [(.name, [.mk (.name (String.ofList t)) none []]), (.body, [listBody body]),
        (.redirections, rs)]) := by
    refine ⟨nofun, nofun, nofun, nofun, fun _ m hm => ?_, nofun⟩
    obtain rfl : m = .mk (.name (String.ofList t)) none [] := by simpa [all_assemble] using hm
    rw [charactersOf_name]
    exact taken _ mem nofun
  simpa using throughout_assemble here (by simpa [spelled_name] using ⟨list, others⟩)

/-! ### Scripts -/

/-- Other symbols put together no node whose texts matter. -/
theorem not_mem_namers (other : s ∉ [.simpleCommand, .redirect, .forClause, .functionDefinition]) :
    ∀ k ∈ assembled s, k ∉ namers := by
  revert other
  cases s <;> decide

/-- What is read is spelled as its terminals take it. -/
theorem Reads.spelled (h : Reads s w qs) (taken : ∀ l ∈ w, Taken l) :
    ∀ n ∈ allNodes qs, Throughout Spelled n := by
  revert taken
  refine Reads.rec
    (motive_1 := fun s w qs _ => (∀ l ∈ w, Taken l) → ∀ n ∈ allNodes qs, Throughout Spelled n)
    (motive_2 := fun xs w ps _ => (∀ l ∈ w, Taken l) → ∀ n ∈ allNodes ps, Throughout Spelled n)
    ?production ?nil ?token ?symbol h
  case production =>
    intro s items w ps qs mem row made ih taken
    have all := ih taken
    have reads : anyReads Makings s.alternatives w ps := (anyReads_iff _).mpr ⟨items, mem, row.made⟩
    -- Four symbols put texts where a terminal of their own takes them; the others keep them.
    by_cases other : s ∉ [.simpleCommand, .redirect, .forClause, .functionDefinition]
    · exact (hereditary_spelled none).symbolPieces (not_mem_namers other) all made
    · simp only [List.mem_cons, List.not_mem_nil, or_false, not_not] at other
      rcases other with rfl | rfl | rfl | rfl
      · exact spelled_simpleCommand reads taken all made
      · exact spelled_redirect reads taken made
      · exact spelled_forClause reads taken all made
      · exact spelled_functionDefinition reads taken all made
  case nil =>
    simp
  case token =>
    intro l xs w ps _ ih taken
    rw [List.forall_mem_cons] at taken
    rw [allNodes_append, List.forall_mem_append]
    exact ⟨spelled_pieces taken.1, ih taken.2⟩
  case symbol =>
    intro s xs w₁ w₂ ps₁ ps₂ _ _ first others taken
    rw [List.forall_mem_append] at taken
    rw [allNodes_append, List.forall_mem_append]
    exact ⟨first taken.1, others taken.2⟩

/-- The texts of a script that is read are spelled as their terminals take them. -/
theorem spelled_parse {source : List Char} {file : Option String} {t : Node}
    (parsed : parse source { file } = .ok t) : Throughout Spelled t := by
  obtain ⟨w, reads, taken⟩ := exists_reads_of_parse parsed
  exact reads.spelled taken t (by simp)

end

end ShellInliner.Parse
