import DualIssue.Compile

set_option autoImplicit false

namespace DualIssue

inductive Event where
  | started (block : Block)
  | extended (branch last : Address)
  | waived (branch : Address) (reg : Register)
  | delayed (snapshot : Snapshot)
  | pair (address : Address) (time : Cycle)
  | refused (block : Block) (reason : Refusal)
  | evicted (block : Block)
  | invalidated (blocks : List Block)
  deriving DecidableEq, Repr

def Snapshot.text (s : Snapshot) : String :=
  String.join ["IntegerDelay \x7b reg: ", Text.decimal s.reg.toNat,
    ", save_address: ", Text.decimal s.saveAt.toNat,
    ", use_address: ", Text.decimal s.useAt.toNat, " \x7d"]

def Event.text : Event → String
  | .started b =>
    String.join ["TRACE span compile_block begin=", Text.decimal b.first.toNat,
      " end=", Text.decimal b.last.toNat]
  | .extended branch last =>
    String.join ["DEBUG extending block to include delay slot branch=", Text.decimal branch.toNat,
      " fixed_end=", Text.decimal last.toNat]
  | .waived branch r =>
    String.join ["DEBUG special loop: no integer branch delay branch=", Text.decimal branch.toNat,
      " reg=", Text.decimal r.toNat]
  | .delayed s => String.join ["DEBUG integer branch delay ret=", s.text]
  | .pair a t =>
    String.join ["TRACE pair address=", Text.decimal a.toNat,
      " relative_pipe_time=", Text.decimal t.toNat]
  | .refused b r => String.join ["ERROR ", r.message, " block=", b.text]
  | .evicted b => String.join ["DEBUG evicting block oldest=", b.text]
  | .invalidated bs =>
    String.join ["DEBUG invalidating ", Text.commaSeparated (bs.map (·.text))]

end DualIssue
