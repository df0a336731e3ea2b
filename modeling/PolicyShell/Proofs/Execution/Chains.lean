import PolicyShell.Proofs.Execution.Groups
import PolicyShell.Proofs.Syntax.Acceptance

/-! Commands that operators join. The tree of such a chain leans to the left, and running it comes
to running its commands one by one, of which each may be left out because of the status of the last
one that ran. -/
namespace PolicyShell

/-- A later command of a chain and the operator in front of it. -/
structure Link where
  connective : Connective
  command : Command

/-- The tree of a chain. -/
def Command.chained (first : Command) (links : List Link) : Command :=
  links.foldl (fun left link => .chain left link.connective link.command) first

namespace Grammar

/-- The later commands of a chain, from the first operator on. -/
inductive IsLinks : List Link → List Token → List Token → Prop where
  | ended (rest : List Token) : IsLinks [] rest rest
  | link {operator : Token} {connective : Connective} {next : Command} {links : List Link}
      {newlines tokens middle rest : List Token} (connects : connective? operator = some connective)
      (blank : AllNewlines newlines) (here : Derives (.command next) tokens middle)
      (later : IsLinks links middle rest) :
      IsLinks (⟨connective, next⟩ :: links) (operator :: (newlines ++ tokens)) rest

/-- Simple commands, groups and definitions with operators between them. -/
def IsChain (first : Command) (links : List Link) (tokens rest : List Token) : Prop :=
  ∃ middle, Derives (.command first) tokens middle ∧ IsLinks links middle rest

/-- The tree grows at its root with every operator that is read. -/
theorem IsLinks.derives {links : List Link} {middle rest : List Token}
    (isLinks : IsLinks links middle rest) {tokens : List Token} {left : Command}
    (before : Derives (.andOr left) tokens middle) :
    Derives (.andOr (left.chained links)) tokens rest := by
  induction isLinks generalizing left with
  | ended rest => exact before
  | link connects blank here _ ih => exact ih (.joined before connects blank here)

private theorem IsChain.isProgram {first : Command} {links : List Link}
    {leading tokens trailing : List Token} (chain : IsChain first links tokens trailing)
    (before : AllSeparators leading) (after : AllSeparators trailing) :
    IsProgram [first.chained links] (leading ++ tokens) := by
  obtain ⟨middle, here, later⟩ := chain
  have derives : Derives (.andOr (first.chained links)) tokens trailing :=
    later.derives (.alone here)
  exact .sequence before (.last derives) after

end Grammar

/-- Where there is no command left, there is none in the other dialect either. -/
theorem readNext_none_any {dialect : Dialect} {text rest : List Char}
    (read : readNext dialect text = .ok (none, rest)) (dialect' : Dialect) :
    readNext dialect' text = .ok (none, rest) := by
  rcases dialect.eq_plain_or_splicing with rfl | rfl
  · obtain ⟨_, read', same⟩ := readNext_splicing read
    cases same
    exact readNext_any read read' dialect'
  · obtain ⟨_, read', same⟩ := readNext_plain read
    cases same
    exact readNext_any read' read dialect'

namespace Execution

variable {m : Type → Type} [Monad m]

/-- What follows a command that ended normally. -/
def onNormal (next : Int → Action m Flow) : Flow → Action m Flow
  | .normal status => next status
  | flow => return flow

/-- Runs the later commands of a chain one by one; `status` is that of the last one that ran. A
command is left out if its operator asks for another status. -/
def linksInTurn (run : Command → Action m Flow) (status : Int) : List Link → Action m Flow
  | [] => return .normal status
  | ⟨connective, next⟩ :: rest =>
    match connective, decide (status = 0) with
    | .and, true | .or, false => run next >>= onNormal fun status => linksInTurn run status rest
    | .and, false | .or, true => linksInTurn run status rest

/-- Runs the commands of a chain from the first to the last, unless one of them does not end
normally. -/
def inTurn (run : Command → Action m Flow) (first : Command) (links : List Link) : Action m Flow :=
  run first >>= onNormal fun status => linksInTurn run status links

@[simp] theorem onNormal_pure : onNormal (m := m) (fun status => pure (.normal status)) = pure := by
  funext flow
  cases flow <;> rfl

variable [LawfulMonad m]

private theorem onNormal_bind (next later : Int → Action m Flow) (flow : Flow) :
    onNormal next flow >>= onNormal later =
      onNormal (fun status => next status >>= onNormal later) flow := by
  cases flow with
  | normal status => rfl
  | returning status => exact pure_bind ..
  | exiting status => exact pure_bind ..

private theorem linksInTurn_cons (run : Command → Action m Flow) (status : Int) (link : Link)
    (rest : List Link) :
    linksInTurn run status (link :: rest) =
      (if link.connective.goesOn status then run link.command else pure (.normal status)) >>=
        onNormal fun status => linksInTurn run status rest := by
  have skipped : linksInTurn run status rest =
      pure (.normal status) >>= onNormal fun status => linksInTurn run status rest :=
    (pure_bind (Flow.normal status) (onNormal fun status => linksInTurn run status rest)).symm
  obtain ⟨connective, next⟩ := link
  by_cases zero : status = 0
  · cases connective with
    | and => simp [linksInTurn, Connective.goesOn, zero]
    | or => simpa [linksInTurn, Connective.goesOn, zero] using skipped
  · cases connective with
    | and => simpa [linksInTurn, Connective.goesOn, zero] using skipped
    | or => simp [linksInTurn, Connective.goesOn, zero]

/-- The operator of a chain looks at the status of the command on its left, which is remembered
already when that command has run. -/
theorem command_chain (host : Host m) (nested : Nested (Action m)) (left : Command)
    (connective : Connective) (right : Command) :
    command settle host nested (.chain left connective right) =
      command settle host nested left >>= onNormal fun status =>
        if connective.goesOn status then command settle host nested right
        else pure (.normal status) := by
  rw [command]
  refine (settle_of_settled fun shell => ?_).trans (bind_congr fun flow => ?_)
  · refine (settled_command host nested left shell).bind (fun flow after settled => ?_)
      fun _ _ _ => nofun
    cases flow with
    | normal status =>
      dsimp only
      split
      · exact settled_command host nested right after
      · refine .returns ?_
        rintro _ ⟨⟩
        exact settled status rfl
    | returning status => exact .returns nofun
    | exiting status => exact .returns nofun
  · cases flow <;> rfl

/-- The first operator of a chain may as well be part of its first command. -/
theorem command_chained (host : Host m) (nested : Nested (Action m)) (first : Command)
    (links : List Link) :
    command settle host nested (first.chained links) =
      inTurn (command settle host nested) first links := by
  induction links generalizing first with
  | nil => simp [Command.chained, inTurn, linksInTurn]
  | cons link rest ih =>
    refine (ih (.chain first link.connective link.command)).trans ?_
    rw [inTurn, command_chain, bind_assoc, inTurn]
    refine bind_congr fun flow => (onNormal_bind ..).trans ?_
    simp only [linksInTurn_cons]

/-- A unit of one command runs as the command does. -/
theorem runSource_of_single (host : Host m) {dialect : Dialect} {text : String} {tree : Command}
    (read : parse dialect text = .ok [tree]) {shell : Shell}
    (known : shell.options.dialect = dialect) :
    (Action.runSource host text).run shell = (Action.runCommand host tree).run shell := by
  rcases readNext_of_commands read with ⟨none, -⟩ | ⟨_, later, _, same, next, last⟩
  · cases none
  cases same
  rcases readNext_of_commands last with ⟨-, rest, nothing⟩ | ⟨_, _, _, same, _⟩
  · have ended (status : Int) :
        (Execution.rest settle host (Execution.nested settle host shell.headroom)
          (.reading dialect text.length later) status : Action m Flow) =
            pure (.normal status) := by
      rw [rest_eq_commands host _ (.done (readNext_none_any nothing)), commands]
    calc (Action.runSource host text).run shell
      _ = (restAfter host (Execution.nested settle host shell.headroom) text.length dialect 0
            (readNext dialect text.toList)).run shell := by
        rw [run_runSource, rest_eq, Action.run_get_bind, known]
      _ = (command settle host (Execution.nested settle host shell.headroom) tree >>=
            onNormal fun status => pure (.normal status)).run shell := by
        rw [next]
        refine congrArg (fun action : Action m Flow => action.run shell) (bind_congr fun flow => ?_)
        cases flow with
        | normal status => exact ended status
        | returning status => rfl
        | exiting status => rfl
      _ = (Action.runCommand host tree).run shell := by
        rw [onNormal_pure, bind_pure, Action.runCommand, runCommand, Action.run_get_bind]
  · cases same

/-- A text of commands that operators join is read as one tree. To run the tree, or the text, is to
run the commands from the first to the last, each one if the last one that ran has ended normally
with a status that its operator goes on with. -/
theorem chain_runs_in_turn (host : Host m) {dialect : Dialect} {text : String}
    {leading tokens trailing : List Token} {first : Command} {links : List Link}
    (lexes : Lexes dialect text.toList (leading ++ tokens)) (before : Grammar.AllSeparators leading)
    (chain : Grammar.IsChain first links tokens trailing)
    (after : Grammar.AllSeparators trailing) :
    parse dialect text = .ok [first.chained links] ∧
      Action.runCommand host (first.chained links) =
        inTurn (Action.runCommand host) first links ∧
      ∀ shell : Shell, shell.options.dialect = dialect →
        (Action.runSource host text).run shell =
          (inTurn (Action.runCommand host) first links).run shell := by
  have parsed : parse dialect text = .ok [first.chained links] := by
    obtain ⟨same, start, finished⟩ := readTokens_of_lexes lexes
    exact commands_of_isProgram finished (same ▸ chain.isProgram before after)
  have run : Action.runCommand host (first.chained links) =
      inTurn (Action.runCommand host) first links := by
    have whole : Action.runCommand host = command settle host (whole host) :=
      (solves_whole host).call
    rw [whole, command_chained]
  refine ⟨parsed, run, fun shell known => ?_⟩
  rw [runSource_of_single host parsed known, run]

/-- A command is left out, and the status is kept for the operator behind it. The exit that a group
comes to ends the chain. -/
theorem chain_runs_in_turn_exit :
    let host : Host Id := ⟨fun _ => .ok [], fun _ => .ok ""⟩
    let text := "false && echo a ||\n\x7b exit 3; \x7d && echo b\n"
    let first : Command := .simple [] [.literal "false"]
    let links : List Link :=
      [⟨.and, .simple [] [.literal "echo", .literal "a"]⟩,
        ⟨.or, .group [.simple [] [.literal "exit", .literal "3"]]⟩,
        ⟨.and, .simple [] [.literal "echo", .literal "b"]⟩]
    let word (text : String) : Token := .word (.literal text)
    let tokens : List Token :=
      [word "false", .and, word "echo", word "a", .or, .newline, .leftBrace, word "exit", word "3",
        .semicolon, .rightBrace, .and, word "echo", word "b", .newline]
    Lexes {} text.toList ([] ++ tokens) ∧ Grammar.IsChain first links tokens [.newline] ∧
      parse {} text = .ok [first.chained links] ∧
      Action.runCommand host (first.chained links) =
        inTurn (Action.runCommand host) first links ∧
      (inTurn (Action.runCommand host) first links).run {} =
        (Action.runSource host text).run {} := by
  intro host text first links word tokens
  have lexes : Lexes {} text.toList ([] ++ tokens) := by
    have present : Grammar.bare (readTokens {} text.toList).1 = tokens := by decide +kernel
    have reads : ReadsAll {} text.toList := readsAll_of_parse (by decide +kernel)
    obtain ⟨start, finished⟩ := reads.finished
    exact present ▸ lexes_of_finished finished
  have ended {next : Token} {rest : List Token} (stops : Grammar.argumentWord? next = none) :
      Grammar.IsArguments [] (next :: rest) (next :: rest) :=
    .ended fun _ here => Option.some.inj here ▸ stops
  have simple {next : Token} {name : Word} {words : List Word} {tokens rest : List Token}
      (plain : next ≠ .leftParen) (arguments : Grammar.IsArguments words (next :: tokens) rest) :
      Grammar.Derives (.command (.simple [] (name :: words))) (.word name :: next :: tokens) rest :=
    .simple (.words [] (fun _ opened => plain (Option.some.inj opened)) arguments)
  have noNewlines : Grammar.AllNewlines [] := List.forall_mem_nil _
  have newline : Grammar.AllNewlines [.newline] := by simp [Grammar.AllNewlines]
  have noSeparators : Grammar.AllSeparators [] := List.forall_mem_nil _
  have semicolon : Grammar.AllSeparators [.semicolon] := by
    simp [Grammar.AllSeparators, Token.isSeparator]
  have inside : Grammar.Derives (.command (.simple [] [.literal "exit", .literal "3"]))
      (tokens.drop 7) ([.semicolon] ++ .rightBrace :: tokens.drop 11) :=
    simple (by decide) (.argument rfl (ended rfl))
  have group : Grammar.Derives (.command (.group [.simple [] [.literal "exit", .literal "3"]]))
      (tokens.drop 6) (tokens.drop 11) :=
    .group (.braced noSeparators (.last (.alone inside)) semicolon)
  have chain : Grammar.IsChain first links tokens [.newline] := by
    refine ⟨tokens.drop 1, simple (by decide) (ended rfl), ?_⟩
    refine .link rfl noNewlines (simple (by decide) (.argument rfl (ended rfl))) ?_
    refine .link rfl newline group ?_
    exact .link rfl noNewlines (simple (by decide) (.argument rfl (ended rfl))) (.ended _)
  have proved := chain_runs_in_turn host lexes noSeparators chain
    (by simp [Grammar.AllSeparators, Token.isSeparator])
  exact ⟨lexes, chain, proved.1, proved.2.1, (proved.2.2 {} rfl).symm⟩

end Execution

end PolicyShell
