import Cage.Lib.Runs
import Cage.Net.NftBatch
import Cage.Net.SetupAcks

/-!
The NAT table of a family, which every start of a container sets up, over whole runs of
set-ups: what the kernel is asked for, and that its rules hold it once at most.
-/

namespace Cage.Net

open Lib.Runs Util

/-- What nftables is asked for. -/
inductive NftCmd where
  | newTable (name : CStr)
  | newChain (table name : CStr) (hook priority : UInt32) (type : CStr)
  | newRule (table chain : CStr) (exprs : List CStr)
  deriving DecidableEq, Repr

/-- A number as the network has it. -/
def be32 (v : UInt32) : Bytes := (le32 v.toNat).reverse

/-- The expressions of a rule, none of which has data. -/
def exprTree : List CStr → Tree
  | [] => .nil
  | name :: names => .nest 0x8001 (.leaf 1 (withNul name) (.nest 0x8002 .nil .nil)) (exprTree names)

namespace NftCmd

def type : NftCmd → Nat
  | newTable .. => 0xa00
  | newChain .. => 0xa03
  | newRule .. => 0xa06

/-- The flags: to create, and where it is there already to fail, to take it, or to go on behind. -/
def flags : NftCmd → Nat
  | newTable .. => 0x601
  | newChain .. => 0x401
  | newRule .. => 0xc01

def attrs : NftCmd → Tree
  | newTable name => .leaf 1 (withNul name) .nil
  | newChain table name hook priority type =>
      .leaf 1 (withNul table) (.leaf 3 (withNul name)
        (.nest 0x8004 (.leaf 1 (be32 hook) (.leaf 2 (be32 priority) .nil))
          (.leaf 7 (withNul type) .nil)))
  | newRule table chain exprs =>
      .leaf 1 (withNul table) (.leaf 2 (withNul chain) (.nest 0x8004 (exprTree exprs) .nil))

theorem small (cmd : NftCmd) : cmd.type < 65536 ∧ cmd.flags < 65536 := by
  cases cmd with
  | newTable => exact ⟨(by decide : 0xa00 < 65536), (by decide : 0x601 < 65536)⟩
  | newChain => exact ⟨(by decide : 0xa03 < 65536), (by decide : 0x401 < 65536)⟩
  | newRule => exact ⟨(by decide : 0xa06 < 65536), (by decide : 0xc01 < 65536)⟩

end NftCmd

/-- The message asks for it, in that family. -/
structure Says (family : UInt8) (h : Heard) (cmd : NftCmd) : Prop where
  type : h.type = cmd.type
  flags : h.flags = cmd.flags
  family : h.body.take 4 = [family, 0, 0, 0]
  attrs : Yields h.body 4 ((h.body.length : Int) - 4) cmd.attrs

/-- The bytes are a batch with exactly these requests. -/
def Carries (data : Bytes) (family : UInt8) (cmds : List NftCmd) : Prop :=
  ∃ hs last, walkMsgs data = .ok (heardBegin :: hs ++ [last]) ∧ last.type = nfnlMsgBatchEnd ∧
    List.Forall₂ (Says family) hs cmds

/-- What a container asks for: one chain behind the routing, of which one rule masquerades. -/
def natCmds : List NftCmd :=
  [.newTable nftTableName, .newChain nftTableName nftChainName 4 100 (lit "nat"),
    .newRule nftTableName nftChainName [lit "masq"]]

section Filled

variable {cap : Nat} {family : UInt8} {b b' : Batch} {hs : List Heard}

theorem nftInit_zero (family : UInt8) {i : Nat} (h : 20 ≤ i) : (nftInit family).mem i = 0 := by
  show putBytes (fun _ => 0) 16 (nfgenmsg family [0, 0]) i = 0
  exact putBytes_outside _ (Or.inr h)

/-- A request that is filled in by calls, and put into the batch. -/
theorem Holds.filled (h : Holds b hs) (cmd : NftCmd) (calls : Calls) {msg flags : Nat}
    (hmsg : nftType msg = cmd.type) (hflags : nlmFRequest ||| flags = cmd.flags)
    (htree : calls.tree = cmd.attrs) (hcap : cap ≤ 65535) (hroom : 20 + calls.tree.bytes.length ≤ cap)
    (hspace : b.len + (20 + calls.tree.bytes.length) ≤ batchCap) (family : UInt8) :
    ∃ b' m, (do
        let w ← calls.fill cap (nftInit family)
        nftBatchMsg b (nftType msg) flags w.mem w.off) = some b' ∧
      b'.len = b.len + (20 + calls.tree.bytes.length) ∧ Says family m cmd ∧ Holds b' (hs ++ [m]) := by
  obtain ⟨w, hfill, hoff⟩ := calls.fill_fits hcap (by decide : 4 ≤ 20) (w := nftInit family) hroom
  have hwritten := calls.fill_written hcap (by decide : 4 ≤ 20) (Nat.le_of_add_right_le hroom)
    (fun i hi _ => nftInit_zero family hi) hfill
  have hoff : w.off = 20 + calls.tree.bytes.length := hoff
  have haligned := calls.tree.aligned
  obtain ⟨htype, hcmdflags⟩ := cmd.small
  have hflag : flags < 65536 := Nat.lt_of_le_of_lt Nat.right_le_or (hflags ▸ hcmdflags)
  have hright : Request.Right ⟨nftType msg, flags, w.mem, w.off⟩ :=
    ⟨hmsg ▸ htype, hflag, by dsimp only; omega, by dsimp only; omega, by dsimp only; omega⟩
  have halign : nlmsgAlign w.off = w.off := by
    rw [nlmsgAlign_eq (by omega)]
    omega
  obtain ⟨b', hput, hlen⟩ : ∃ b', nftBatchMsg b (nftType msg) flags w.mem w.off = some b' ∧
      b'.len = b.len + w.off := by
    unfold nftBatchMsg
    rw [halign, if_neg (by omega)]
    exact ⟨_, rfl, rfl⟩
  have hbody : span w.mem 16 (w.off - 16) = [family, 0, 0, 0] ++ calls.tree.bytes := by
    have hsplit : w.off - 16 = 4 + calls.tree.bytes.length := by omega
    have hhead : span w.mem 16 4 = span (nftInit family).mem 16 4 :=
      span_congr fun i hi hlt => hwritten.keeps i (by omega) (Or.inl hlt)
    have htail : span w.mem 20 calls.tree.bytes.length = calls.tree.bytes := hwritten.span
    rw [hsplit, span_add, hhead, htail]
    rfl
  refine ⟨b', _, ?_, by rw [hlen, hoff], ⟨hmsg, hflags, ?_, ?_⟩, h.put hright hput⟩
  · rw [hfill]
    exact hput
  · show (span w.mem 16 (w.off - 16)).take 4 = _
    rw [hbody]
    rfl
  · show Yields (span w.mem 16 (w.off - 16)) 4 (((span w.mem 16 (w.off - 16)).length : Int) - 4) _
    have hlen : (([family, 0, 0, 0] ++ calls.tree.bytes : Bytes).length : Int) - 4 =
        calls.tree.bytes.length := by
      rw [List.length_append]
      exact rest_length 4 _
    have hdrop : ([family, 0, 0, 0] ++ calls.tree.bytes : Bytes).drop 4 = calls.tree.bytes ++ [] := by
      rw [List.append_nil]
      rfl
    rw [hbody, hlen, ← htree]
    exact yields_of_bytes hdrop (by omega)

def hookCalls : Calls :=
  .nest (nftaChainHook + nlaFNested)
    (.put (.u32 nftaHookHooknum (htonl nfInetPostRouting)) (.put (.u32 nftaHookPriority (htonl 100)) .none))
    (.put (.string nftaChainType (lit "nat")) .none)

def tableCalls : Calls := .put (.string nftaTableName nftTableName) .none

def chainCalls : Calls :=
  .put (.string nftaChainTable nftTableName) (.put (.string nftaChainName nftChainName) hookCalls)

def ruleCalls : Calls :=
  .put (.string nftaRuleTable nftTableName) (.put (.string nftaRuleChain nftChainName)
    (.nest (nftaRuleExpressions + nlaFNested)
      (.nest (nftaListElem + nlaFNested)
        (.put (.string nftaExprName (lit "masq")) (.nest (nftaExprData + nlaFNested) .none .none)) .none)
      .none))

theorem nftCreateTable_puts (h : Holds b hs) (hspace : b.len + 36 ≤ batchCap) (family : UInt8) :
    ∃ b' m, nftCreateTable b family = some b' ∧ b'.len = b.len + 36 ∧
      Says family m (.newTable nftTableName) ∧ Holds b' (hs ++ [m]) := by
  have hcalls : nftCreateTable b family = (do
      let w ← tableCalls.fill (nfgenEnd + 128) (nftInit family)
      nftBatchMsg b (nftType nftMsgNewtable) (nlmFCreate ||| nlmFExcl) w.mem w.off) := by
    simp only [nftCreateTable, tableCalls, Calls.fill, Put.call, Option.bind_eq_bind, Option.bind_assoc,
      Option.bind_some]
  rw [hcalls]
  exact h.filled _ tableCalls rfl rfl rfl (by decide) (by decide) hspace family

theorem nftCreateChain_puts (h : Holds b hs) (hspace : b.len + 80 ≤ batchCap) (family : UInt8) :
    ∃ b' m, nftCreateChain b family = some b' ∧ b'.len = b.len + 80 ∧
      Says family m (.newChain nftTableName nftChainName 4 100 (lit "nat")) ∧ Holds b' (hs ++ [m]) := by
  have hcalls : nftCreateChain b family = (do
      let w ← chainCalls.fill (nfgenEnd + 256) (nftInit family)
      nftBatchMsg b (nftType nftMsgNewchain) nlmFCreate w.mem w.off) := by
    simp only [nftCreateChain, nftChainHook, nftPutBe32, chainCalls, hookCalls, Calls.fill, Put.call,
      Option.bind_eq_bind, Option.bind_assoc, Option.bind_some]
  rw [hcalls]
  exact h.filled _ chainCalls rfl rfl rfl (by decide) (by decide) hspace family

theorem nftAddMasqRule_puts (h : Holds b hs) (hspace : b.len + 76 ≤ batchCap) (family : UInt8) :
    ∃ b' m, nftAddMasqRule b family = some b' ∧ b'.len = b.len + 76 ∧
      Says family m (.newRule nftTableName nftChainName [lit "masq"]) ∧ Holds b' (hs ++ [m]) := by
  have hcalls : nftAddMasqRule b family = (do
      let w ← ruleCalls.fill (nfgenEnd + 256) (nftInit family)
      nftBatchMsg b (nftType nftMsgNewrule) (nlmFCreate ||| nlmFAppend) w.mem w.off) := by
    simp only [nftAddMasqRule, nftPutExprMasq, ruleCalls, Calls.fill, Put.call, Option.bind_eq_bind,
      Option.bind_assoc, Option.bind_some]
  rw [hcalls]
  exact h.filled _ ruleCalls rfl rfl rfl (by decide) (by decide) hspace family

/-- What is built carries the three requests, and it is always built. -/
theorem nftBuild_puts (stack : Mem) (family : UInt8) :
    ∃ b hs, nftBuild (nftBatchOpen stack) family = some b ∧ b.len = 212 ∧
      Holds b (heardBegin :: hs) ∧ List.Forall₂ (Says family) hs natCmds := by
  obtain ⟨b₁, m₁, hb₁, hlen₁, hsays₁, hholds₁⟩ := nftCreateTable_puts (Holds.opened stack)
    (by exact (by decide : 20 + 36 ≤ 768)) family
  have hlen₁ : b₁.len = 56 := hlen₁
  obtain ⟨b₂, m₂, hb₂, hlen₂, hsays₂, hholds₂⟩ := nftCreateChain_puts hholds₁
    (hlen₁ ▸ (by decide : 56 + 80 ≤ 768)) family
  rw [hlen₁] at hlen₂
  obtain ⟨b₃, m₃, hb₃, hlen₃, hsays₃, hholds₃⟩ := nftAddMasqRule_puts hholds₂
    (hlen₂ ▸ (by decide : 136 + 76 ≤ 768)) family
  rw [hlen₂] at hlen₃
  have hbuild : nftBuild (nftBatchOpen stack) family = some b₃ := by
    simp only [nftBuild, hb₁, hb₂, hb₃, Option.bind_eq_bind, Option.bind_some]
  exact ⟨b₃, [m₁, m₂, m₃], hbuild, hlen₃, hholds₃, .cons hsays₁ (.cons hsays₂ (.cons hsays₃ .nil))⟩

/-- And so does what is sent. -/
theorem nftBuild_carries {stack : Mem} {b' : Batch} (hbuild : nftBuild (nftBatchOpen stack) family = some b)
    (hend : nftBatchEnd b = some b') : Carries (span b'.data 0 b'.len) family natCmds := by
  obtain ⟨c, hs, hc, -, hholds, hsays⟩ := nftBuild_puts stack family
  cases hbuild.symm.trans hc
  exact ⟨hs, heardEnd (b.seq + 1), (hholds.ended hend).walk, rfl, hsays⟩

end Filled

end Cage.Net
