import Dodb.Server.Service
import Dodb.Btree.Budget
import Dodb.Protocol.Sizes

/-! Response budgets and the frames they stand for.

The store charges a read for the frame that will carry its answer, without seeing the encoder. What it charges for rows
is the length of their frame; a state is charged four bytes more than its frame has, and a missing one another eight. -/
namespace Dodb.Server
open Lib PageProg Protocol
variable {maximum : Nat}

/-! ### One read -/

/-- The response a client gets for what the store answers. -/
def responseOf : BatchResponse → Response
  | .get state => .get state
  | .put revision => .put revision
  | .delete revision => .delete revision
  | .query rows => .query rows
  | .scan rows => .scan rows

def isRead : BatchRequest → Prop
  | .get _ => True
  | .query _ _ _ => True
  | .scan _ _ => True
  | .put _ _ => False
  | .delete _ => False

def HasRows : BatchResponse → Prop
  | .query _ => True
  | .scan _ => True
  | _ => False

/-- The length of the frame of a success. -/
def frameSize (response : BatchResponse) : Nat := headerSize + (2 + (responseOf response).size)

/-- The answers of a read under a budget of `maximum` bytes and under a larger one. -/
structure Answered (maximum : Nat) (x y : BatchResponse × ResponseBudget) : Prop where
  same : x.1 = y.1
  fits : frameSize x.1 ≤ maximum
  exact : HasRows x.1 → x.2.usedWire = frameSize x.1

theorem sum_rowCharge (rows : List Document) : (rows.map rowCharge).sum = (rows.map documentSize).sum := by
  have hrow : rowCharge = documentSize := by
    funext row
    unfold rowCharge documentSize
    omega
  rw [hrow]

theorem frameSize_rows {rows rows' : List Document} {b c : ResponseBudget} (h : RowsCharged maximum rows rows' b c) :
    b.usedWire = headerSize + (2 + (4 + (rows.map documentSize).sum)) := by
  rw [h.used, sum_rowCharge]
  unfold responseWireOverhead headerSize
  omega

theorem execute_metered {request : BatchRequest} (hread : isRead request) (limits : StorageLimits)
    {b c : ResponseBudget} (h : b.Below c) (hused : b.usedWire = responseWireOverhead)
    (hmaximum : b.maximumWire = maximum) (hle : responseWireOverhead ≤ maximum) :
    Metered (Answered maximum) (execute limits request b) (execute limits request c) := by
  cases request with
  | get key =>
    refine (getState_metered key h hused hmaximum).bind fun x y hxy => .done ⟨congrArg BatchResponse.get hxy.state, ?_, nofun⟩
    have hfits := hxy.fits
    show headerSize + (2 + stateSize x.1) ≤ maximum
    unfold headerSize
    cases hstate : x.1 with
    | present value revision =>
      rw [hstate] at hfits
      simp only [RevisionState.valueLength] at hfits
      simp only [stateSize]
      omega
    | missing revision =>
      simp only [stateSize]
      omega
  | query pk after limit =>
    refine (query_metered h hused hmaximum hle pk after limit).bind fun x y hxy => ?_
    have hframe := frameSize_rows hxy
    exact .done ⟨congrArg BatchResponse.query hxy.rows, hframe.symm.le.trans hxy.fits, fun _ => hframe⟩
  | scan after limit =>
    refine (scan_metered h hused hmaximum hle after limit).bind fun x y hxy => ?_
    have hframe := frameSize_rows hxy
    exact .done ⟨congrArg BatchResponse.scan hxy.rows, hframe.symm.le.trans hxy.fits, fun _ => hframe⟩
  | put | delete => exact hread.elim

/-- A read under a budget that is still to be made. -/
def charged {α : Type} (read : ResponseBudget → Prog α) (maximum : Nat) : Prog α := do
  let budget ← ofExcept (ResponseBudget.new maximum)
  read budget

theorem charged_metered {request : BatchRequest} (hread : isRead request) (limits : StorageLimits)
    (hmaximum : maximum ≤ usizeMax) :
    Metered (Answered maximum) (charged (execute limits request) maximum) (charged (execute limits request) usizeMax) := by
  have hnew : Metered (fun b c => b.Below c ∧ ResponseBudget.new maximum = .ok b)
      (ofExcept (ResponseBudget.new maximum)) (ofExcept (ResponseBudget.new usizeMax)) := by
    refine .ofExcept (fun b hb => ?_) fun e he => .inl (ResponseBudget.tooLarge_of_new he)
    obtain ⟨c, hc, hbelow⟩ := ResponseBudget.below_new hmaximum hb
    exact ⟨c, hc, hbelow, hb⟩
  refine hnew.bind fun b c hbc => ?_
  obtain ⟨hused, hmax, hle⟩ := ResponseBudget.new_eq_ok hbc.2
  exact execute_metered hread limits hbc.1 hused hmax hle

/-! ### Readers -/

/-- A reader respects a budget: what it answers is what it would answer without a limit, in a frame that is not too
long, and it only ever fails for the budget's sake with the error that says so. -/
structure BudgetSound {τ : Type} (maximum : Nat) (run : Nat → Outcome τ Error (BatchResponse × ResponseBudget)) :
    Prop where
  same : ∀ response b t, run maximum = .ok (response, b) t → ∃ c, run usizeMax = .ok (response, c) t
  frame : ∀ response b t, run maximum = .ok (response, b) t → ∀ limits frame, limits.validate = .ok () →
    encodeResponse (.success (responseOf response)) limits = .ok frame →
    frame.length ≤ maximum ∧ (HasRows response → b.usedWire = frame.length)
  error : ∀ e t, run maximum = .err e t → ∀ x t', run usizeMax = .ok x t' → TooLarge e

theorem length_frame {limits : ProtocolLimits} (hlimits : limits.validate = .ok ()) {response : BatchResponse}
    {frame : Bytes} (h : encodeResponse (.success (responseOf response)) limits = .ok frame) :
    frame.length = frameSize response :=
  ((sized_response hlimits).admits h).2

/-- Two programs that are alike but for the budget are a reader that respects it, whatever runs them. -/
theorem budgetSound_run {τ : Type} {read : Nat → Prog (BatchResponse × ResponseBudget)}
    (h : Metered (Answered maximum) (read maximum) (read usizeMax)) (handler : Handler PageId PageData Alloc Error τ)
    (t : τ) : BudgetSound maximum fun n => (read n).run handler t where
  same response b t' hok := by
    obtain ⟨y, hrun, hy⟩ := h.run_ok (fun _ => rfl) hok
    exact ⟨y.2, by rw [hrun, show response = y.1 from hy.same]⟩
  frame response b t' hok limits frame hlimits hencode := by
    obtain ⟨y, -, hy⟩ := h.run_ok (fun _ => rfl) hok
    rw [length_frame hlimits hencode]
    exact ⟨hy.fits, hy.exact⟩
  error e t' herr x t'' hok := by
    cases h.run_err (fun _ => rfl) herr with
    | inl hlarge => exact hlarge
    | inr hsame =>
      obtain ⟨e', hrun, -⟩ := hsame
      rw [hok] at hrun
      cases hrun

theorem tooLarge_of_complains {e e' : Error} (h : Complains e e') (hlarge : TooLarge e') : TooLarge e := by
  cases h with
  | inl heq => exact heq ▸ hlarge
  | inr hcorrupt =>
    obtain ⟨text, text', -, rfl⟩ := hcorrupt
    obtain ⟨t, ht⟩ := hlarge
    cases ht

/-- A reader that complains in words of its own respects a budget as well. -/
theorem BudgetSound.mirror {τ : Type} {read read' : Nat → Prog (BatchResponse × ResponseBudget)}
    (hmirrors : ∀ n, Mirrors Eq (read' n) (read n)) {handler : Handler PageId PageData Alloc Error τ} {t : τ}
    (h : BudgetSound maximum fun n => (read n).run handler t) :
    BudgetSound maximum fun n => (read' n).run handler t where
  same response b t' hok := by
    obtain ⟨y, hrun, rfl⟩ := (hmirrors maximum).run_ok Complains.refl hok
    obtain ⟨c, hunlimited⟩ := h.same response b t' hrun
    cases (hmirrors usizeMax).run_ok_of Complains.refl hunlimited with
    | inl hboth =>
      obtain ⟨x, hx, rfl⟩ := hboth
      exact ⟨c, hx⟩
    | inr hcut =>
      obtain ⟨_, _, _, hfalse⟩ := hcut
      exact hfalse.elim
  frame response b t' hok limits frame hlimits hencode := by
    obtain ⟨y, hrun, rfl⟩ := (hmirrors maximum).run_ok Complains.refl hok
    exact h.frame response b t' hrun limits frame hlimits hencode
  error e t' herr x t'' hok := by
    obtain ⟨y, hunlimited, -⟩ := (hmirrors usizeMax).run_ok Complains.refl hok
    cases (hmirrors maximum).run_err Complains.refl herr with
    | inl hfalse => exact hfalse.elim
    | inr hsame =>
      obtain ⟨e', hrun, hcomplains⟩ := hsame
      exact tooLarge_of_complains hcomplains (h.error e' t' hrun y t'' hunlimited)

theorem charged_mirrors {request : BatchRequest} {read : ResponseBudget → Prog (BatchResponse × ResponseBudget)}
    (h : CommittedReadView.execute request = some read) (limits : StorageLimits) (n : Nat) :
    Mirrors Eq (charged read n) (charged (execute limits request) n) := by
  refine (mirrors_same _).bind fun b c hbc => ?_
  rw [hbc]
  exact CommittedReadView.execute_mirrors h limits c

theorem isRead_of_view {request : BatchRequest} {read : ResponseBudget → Prog (BatchResponse × ResponseBudget)}
    (h : CommittedReadView.execute request = some read) : isRead request := by
  cases request with
  | get | query | scan => exact True.intro
  | put | delete => cases h

/-- Both readers respect every budget: the one of the store, in any state of its overlay and its files, and the one of
a committed read view, with any pages. -/
theorem response_budget_sound [Crc32c] {request : BatchRequest} {maximum : Nat} (hmaximum : maximum ≤ usizeMax) :
    (isRead request → ∀ (limits : StorageLimits) (m : Machine FileId Overlay),
      BudgetSound maximum fun n => Overlay.exec (charged (execute limits request) n) m) ∧
    ∀ read, CommittedReadView.execute request = some read → ∀ view : CommittedReadView,
      BudgetSound maximum fun n => PageProg.exec (charged read n) view.stage := by
  refine ⟨fun hread limits m => budgetSound_run (charged_metered hread limits hmaximum) _ m, fun read hview view => ?_⟩
  refine BudgetSound.mirror (charged_mirrors hview {}) ?_
  exact budgetSound_run (charged_metered (isRead_of_view hview) {} hmaximum) _ _

/-- A view of two documents in one leaf. -/
def sampleView : CommittedReadView where
  rootPageId := 2
  highWaterPageId := 2
  pages := SortedMap.empty.insert 2 (.leaf 3 none
    [⟨DocumentKey.encode ⟨[1], [1]⟩, 3, some (.inline [7])⟩, ⟨DocumentKey.encode ⟨[1], [2]⟩, 3, some (.inline [8])⟩])

def sampleRows : List Document := [⟨⟨[1], [1]⟩, [7], 3⟩, ⟨⟨[1], [2]⟩, [8], 3⟩]

def sampleRead (budget : ResponseBudget) : Prog (BatchResponse × ResponseBudget) := do
  let (rows, budget) ← CommittedReadView.queryWithBudget [1] none 2 budget
  pure (.query rows, budget)

/-- A budget of 63 bytes is what the two rows take, and they are answered as without a limit. -/
theorem response_budget_sample : CommittedReadView.execute (.query [1] none 2) = some sampleRead ∧
    ∃ b c, PageProg.exec (charged sampleRead 63) sampleView.stage = .ok (.query sampleRows, b) sampleView.stage ∧
      PageProg.exec (charged sampleRead usizeMax) sampleView.stage = .ok (.query sampleRows, c) sampleView.stage ∧
      b.usedWire = 63 := by
  have hrun : PageProg.exec (charged sampleRead 63) sampleView.stage =
      .ok (.query sampleRows, ⟨63, 63 + 65536, 63, 134⟩) sampleView.stage := rfl
  have hread : CommittedReadView.execute (.query [1] none 2) = some sampleRead := rfl
  obtain ⟨c, hc⟩ := ((@response_budget_sound castagnoli _ 63 (by decide)).2 sampleRead hread sampleView).same _ _ _ hrun
  exact ⟨hread, _, c, hrun, hc, rfl⟩

end Dodb.Server
