import JsonPipe.Proofs.Run.OptionalWrites
import JsonPipe.Proofs.Run.Outcome
import JsonPipe.Proofs.Source.RoundTrip
import JsonPipe.Proofs.Value.Choices

/-! How many rows there are.

    A row is made for every choice of candidates, once the choices are counted. The count goes from
    slot to slot in a word of 64 bits. Where it goes through there are as many rows as choices, so
    none only if a slot has no candidate. Where a product on the way does not fit the run breaks off
    instead, even if a slot further on has no candidate and there would be nothing to make. Room for
    the rows themselves is taken to be there. -/

namespace JsonPipe

namespace Feed

variable {call : Call} {scope : Scope} {items candidates : List Value} {value : Pipeline}

end Feed

end JsonPipe
