import BitGrammar.Rule

/-!
# Induction on rules

What holds of a rule whenever it holds of its parts holds of every rule. The rules that a
continuation can make count as parts; the rule that a cell is bound to does not.
-/

namespace BitGrammar

/-- Induction on rules. Lists of rules and the results of continuations give a hypothesis for each
of their rules. -/
@[elab_as_elim, induction_eliminator]
theorem Rule.induction {motive : Rule → Prop}
    (byte : ∀ (expected : UInt8), motive (.byte expected))
    (byteRange : ∀ (lower upper : UInt8), motive (.byteRange lower upper))
    (byteIn : ∀ (set : ByteSet), motive (.byteIn set))
    (literal : ∀ (bytes : List UInt8), motive (.literal bytes))
    (take : ∀ (count : Nat), motive (.take count))
    (bits : ∀ (width : Nat) (signed : Bool) (fits : width ≤ 64), motive (.bits width signed fits))
    (skip : ∀ (count : Nat), motive (.skip count))
    (tell : motive (.tell))
    (seek : ∀ (offset : Int64) (anchor : Anchor), motive (.seek offset anchor))
    (epsilon : motive (.epsilon))
    (nothing : motive (.nothing))
    (finish : motive (.finish))
    (sequence : ∀ rules : List Rule, (∀ rule ∈ rules, motive rule) → motive (.sequence rules))
    (choice : ∀ rules : List Rule, (∀ rule ∈ rules, motive rule) → motive (.choice rules))
    (permutation : ∀ rules : List Rule, (∀ rule ∈ rules, motive rule) → motive (.permutation rules))
    (left : ∀ keep drop, motive keep → motive drop → motive (.left keep drop))
    (right : ∀ drop keep, motive drop → motive keep → motive (.right drop keep))
    (middle : ∀ opening content closing, motive opening → motive content → motive closing →
      motive (.middle opening content closing))
    (ignore : ∀ rule, motive rule → motive (.ignore rule))
    (optional : ∀ rule, motive rule → motive (.optional rule))
    (followedBy : ∀ rule, motive rule → motive (.followedBy rule))
    (notFollowedBy : ∀ rule, motive rule → motive (.notFollowedBy rule))
    (butNot : ∀ rule other, motive rule → motive other → motive (.butNot rule other))
    (difference : ∀ rule other, motive rule → motive other → motive (.difference rule other))
    (exclusiveOr : ∀ first second, motive first → motive second →
      motive (.exclusiveOr first second))
    (many : ∀ rule, motive rule → motive (.many rule))
    (many1 : ∀ rule, motive rule → motive (.many1 rule))
    (times : ∀ rule count, motive rule → motive (.times rule count))
    (sepBy : ∀ item separator, motive item → motive separator → motive (.sepBy item separator))
    (sepBy1 : ∀ item separator, motive item → motive separator → motive (.sepBy1 item separator))
    (lengthValue : ∀ length rule, motive length → motive rule → motive (.lengthValue length rule))
    (whitespace : ∀ rule, motive rule → motive (.whitespace rule))
    (withOrder : ∀ order rule, motive rule → motive (.withOrder order rule))
    (map : ∀ name f rule, motive rule → motive (.map name f rule))
    (filter : ∀ name accept rule, motive rule → motive (.filter name accept rule))
    (andThen : ∀ name continuation rule, (∀ v next, continuation v = some next → motive next) →
      motive rule → motive (.andThen name continuation rule))
    (inRange : ∀ lower upper nonempty rule, motive rule →
      motive (.inRange lower upper nonempty rule))
    (ref : ∀ cell, motive (.ref cell))
    (misuse : ∀ what, motive (.misuse what))
    (rule : Rule) : motive rule :=
  @Rule.rec motive (fun rules => ∀ rule ∈ rules, motive rule)
    (fun rule? => ∀ rule, rule? = some rule → motive rule)
    byte byteRange byteIn literal take bits skip tell seek epsilon nothing finish
    sequence choice permutation left right middle ignore optional followedBy notFollowedBy
    butNot difference exclusiveOr many many1 times sepBy sepBy1 lengthValue whitespace
    withOrder map filter andThen inRange ref misuse
    (fun _ h => nomatch h)
    (fun _ _ head tail rule h => (List.mem_cons.mp h).elim (fun e => e ▸ head) (tail rule))
    (fun _ h => nomatch h)
    (fun _ made _ h => Option.some.inj h ▸ made)
    rule

end BitGrammar
