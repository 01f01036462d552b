import SmingCoap.ResponseAgreement
import SmingCoap.UriAgreement
import SmingCoap.Client.ScheduleSoundness
import SmingCoap.Client.CallbackSoundness
import SmingCoap.Client.ResponseSoundness
import SmingCoap.Server.Endpoint
import SmingCoap.Server.Resource
import SmingCoap.Server.Interaction
import SmingCoap.Server.Engine
import SmingCoap.Server.CallSteps
import SmingCoap.Server.WorkSteps
import SmingCoap.Server.PacketSteps
import SmingCoap.Server.Invariants
import SmingCoap.Server.AdmissionSoundness
import SmingCoap.Server.DuplicateSoundness
import SmingCoap.Server.PairingSoundness
import SmingCoap.Server.RequeueSoundness
import SmingCoap.Server.AcknowledgementSoundness
import SmingCoap.Server.FilterSoundness
import SmingCoap.Server.NotifierSoundness
import SmingCoap.Server.CoverageSoundness
import SmingCoap.Server.PointerSoundness
import SmingCoap.Server.ClockSoundness
import SmingCoap.Server.ObserverSoundness
import SmingCoap.Server.ObserveValue
import SmingCoap.Server.SerialSteps
import SmingCoap.Server.SerialSoundness
import SmingCoap.Server.Payload
import SmingCoap.Server.MemorySoundness
import SmingCoap.Ownership.Ledger
import SmingCoap.Server.Ownership
import SmingCoap.Server.OwnershipSoundness
import SmingCoap.Client.TimerSoundness
import SmingCoap.Client.AttemptSoundness
import SmingCoap.Client.TilingSoundness
import SmingCoap.Client.ReadSoundness
import SmingCoap.Server.ReadSoundness
import SmingCoap.Client.TokenSoundness
import SmingCoap.Client.GetUri
import SmingCoap.Client.HashSoundness
import SmingCoap.Client.QueueSoundness
import SmingCoap.Client.UriSoundness
import SmingCoap.Client.UriLengthSoundness
import SmingCoap.Transition.Comparison
import SmingCoap.Client.FailureSoundness
import SmingCoap.Client.ResetSoundness
import SmingCoap.Client.PayloadSoundness
import SmingCoap.Server.BlockwiseSoundness
import SmingCoap.Server.EchoSoundness
import SmingCoap.Server.Storage
import SmingCoap.Server.UriSoundness
import SmingCoap.Server.PackSoundness
import SmingCoap.LinkedList.Chain
import SmingCoap.Server.OptionList
import SmingCoap.Server.OptionListSoundness
import SmingCoap.Server.SavedRecords
import SmingCoap.Server.RestoredRecords
import SmingCoap.Server.StorageSoundness
import SmingCoap.Server.BlockReplySoundness
import SmingCoap.FormatAgreement
import SmingCoap.Server.CapacitySoundness
import SmingCoap.Server.LinkFormatSoundness
import SmingCoap.Server.WifiSoundness
import SmingCoap.Server.LedSoundness
import SmingCoap.Server.SocketSoundness
import SmingCoap.Server.LookupSoundness
import SmingCoap.Client.FrameSoundness
import SmingCoap.Client.ElapsedSoundness
import SmingCoap.Server.ReallocationSoundness
import SmingCoap.Server.PayloadPointers
import SmingCoap.Server.OptionHeapSoundness
import SmingCoap.Server.AttributionSoundness
import SmingCoap.ExchangeSoundness
import SmingCoap.Server.ScanRuns
import SmingCoap.Server.EngineListRuns
import SmingCoap.Server.ObserverListRuns
